/-
  The grammar of lines, and the first violation of it.

  * `Marks token name`, `ReadsOperand token a`: what a token is as a label marker
    and as an operand.  `Violates token`: it may not follow the mnemonic;
  * `ReadsLine tokens statements`: a line is some markers and, after them, possibly
    a mnemonic with operands.  `ofTokens_eq_ok_iff`: so it is read;
  * `First faulty xs place x`: the first faulty element of a list.
    `mapM_eq_error_iff`: it is where reading a list fails;
  * `FollowsMnemonic tokens operands`, `AcceptsLine tokens`: what stands after the
    first token that is no marker, and that nothing there violates the grammar;
  * `LineFault tokens fault`: the leftmost violation in a line, and
    `FirstViolation lines e`: the one in the first line that has any;
  * `ofLines_exact`: lines are read iff all are accepted, and then one after the
    other; otherwise the error is the first violation.
-/
import RegisterMachine.Proofs.Literals
import RegisterMachine.Proofs.RoundTrip
import RegisterMachine.Proofs.Translation

namespace RegisterMachine

/-! ## Tokens -/

/-- A token is the marker of a label: its name with a colon after it. -/
def Marks (token name : String) : Prop :=
  Identifier name ∧ token = name ++ ":"

def IsMarker (token : String) : Prop :=
  ∃ name, Marks token name

/-- What a token is as an operand: a literal whose integer is a word, or an
    identifier. -/
inductive ReadsOperand : String → Argument → Prop
  | integer {token} {value : Word} : Denotes token.toList value.toInt →
      ReadsOperand token (.integer value)
  | name {token} : Identifier token → ReadsOperand token (.name token)

def IsOperand (token : String) : Prop :=
  ∃ a, ReadsOperand token a

/-- A token may not follow the mnemonic. -/
def Violates (token : String) : Prop :=
  IsMarker token ∨ ¬ IsOperand token

/-- The fault of a token that may not follow the mnemonic. -/
inductive Violation : String → TokenFault → Prop
  | marker {token} : IsMarker token → Violation token (.unexpectedLabel token)
  | invalid {token} : ¬ IsMarker token → ¬ IsOperand token → Violation token (.invalidToken token)

theorem markedLabel?_eq_some_iff_marks {token name : String} :
    markedLabel? token = some name ↔ Marks token name := by
  rw [markedLabel?_eq_some_iff, isIdentifier_iff, Marks]

theorem not_isMarker_iff {token : String} : ¬ IsMarker token ↔ markedLabel? token = none := by
  simp only [Option.eq_none_iff_forall_ne_some, ne_eq, markedLabel?_eq_some_iff_marks, IsMarker,
    not_exists]

theorem literal?_eq_some_iff_denotes {token : String} {value : Word} :
    literal? token = some value ↔ Denotes token.toList value.toInt := by
  rw [literal?_eq_some_iff]
  constructor
  · rintro ⟨v, hv, -, -, rfl⟩
    exact hv
  · intro hv
    have hlow : -2 ^ 63 ≤ value.toInt := value.le_toInt
    have hhigh : value.toInt < 2 ^ 63 := value.toInt_lt
    exact ⟨value.toInt, hv, hlow, by omega, rfl⟩

/-- A marker starts like an identifier, and so is no literal. -/
theorem IsMarker.literal?_eq_none {token : String} (h : IsMarker token) :
    literal? token = none := by
  obtain ⟨name, ⟨c, rest, hn, hc, -⟩, rfl⟩ := h
  -- the first character is no digit and no sign
  have hm : c ≠ '-' := by
    rintro rfl
    exact absurd (isIdentifierStart_iff.2 hc) (by decide)
  rw [literal?, String.toList_append, hn, List.cons_append,
    integer?_cons_eq_none (not_isDigit_of_identifierStart hc) hm, Option.bind_none]

theorem IsMarker.not_isOperand {token : String} (h : IsMarker token) : ¬ IsOperand token := by
  rintro ⟨a, hv | hn⟩
  · have hl := literal?_eq_some_iff_denotes.2 hv
    rw [h.literal?_eq_none] at hl
    cases hl
  · obtain ⟨name, -, rfl⟩ := h
    exact hn.not_mem (c := ':') rfl (by simp)

theorem ofToken_of_readsOperand {token : String} {a : Argument} (h : ReadsOperand token a) :
    Argument.ofToken token = .ok a := by
  cases h with
  | integer hv =>
    have hm : ¬ IsMarker token := fun hm => hm.not_isOperand ⟨_, .integer hv⟩
    rw [Argument.ofToken, not_isMarker_iff.1 hm, literal?_eq_some_iff_denotes.2 hv]
    rfl
  | name hn => exact Argument.ofToken_name hn

theorem ofToken_of_violation {token : String} {fault : TokenFault} (h : Violation token fault) :
    Argument.ofToken token = .error fault := by
  cases h with
  | marker hm =>
    obtain ⟨name, hn⟩ := hm
    rw [Argument.ofToken, markedLabel?_eq_some_iff_marks.2 hn]
    rfl
  | invalid hm ho =>
    have hl : literal? token = none := by
      rw [Option.eq_none_iff_forall_ne_some]
      intro value hv
      exact ho ⟨_, .integer (literal?_eq_some_iff_denotes.1 hv)⟩
    have hi : ¬ isIdentifier token = true := fun hi => ho ⟨_, .name (isIdentifier_iff.1 hi)⟩
    rw [Argument.ofToken, not_isMarker_iff.1 hm, hl]
    simp [hi]

theorem exists_violation_iff {token : String} :
    (∃ fault, Violation token fault) ↔ Violates token := by
  constructor
  · rintro ⟨fault, hm | ⟨-, ho⟩⟩
    · exact Or.inl hm
    · exact Or.inr ho
  · intro h
    by_cases hm : IsMarker token
    · exact ⟨_, .marker hm⟩
    · exact ⟨_, .invalid hm (h.resolve_left hm)⟩

/-- A token is an operand, or it violates the grammar. -/
theorem not_violates_iff {token : String} : ¬ Violates token ↔ IsOperand token := by
  constructor
  · intro h
    by_contra ho
    exact h (Or.inr ho)
  · rintro ho (hm | hn)
    · exact hm.not_isOperand ho
    · exact hn ho

theorem ofToken_eq_ok_iff {token : String} {a : Argument} :
    Argument.ofToken token = .ok a ↔ ReadsOperand token a := by
  constructor
  · intro h
    by_cases hv : Violates token
    · obtain ⟨fault, hf⟩ := exists_violation_iff.2 hv
      cases h.symm.trans (ofToken_of_violation hf)
    · obtain ⟨b, hb⟩ := not_violates_iff.1 hv
      cases h.symm.trans (ofToken_of_readsOperand hb)
      exact hb
  · exact ofToken_of_readsOperand

theorem ofToken_eq_error_iff {token : String} {fault : TokenFault} :
    Argument.ofToken token = .error fault ↔ Violation token fault := by
  constructor
  · intro h
    by_cases hv : Violates token
    · obtain ⟨other, hf⟩ := exists_violation_iff.2 hv
      cases h.symm.trans (ofToken_of_violation hf)
      exact hf
    · obtain ⟨b, hb⟩ := not_violates_iff.1 hv
      cases h.symm.trans (ofToken_of_readsOperand hb)
  · exact ofToken_of_violation

/-! ## The first faulty element -/

/-- An element of a list is faulty, and it is the first one that is. -/
structure First {α : Type} (faulty : α → Prop) (xs : List α) (place : Nat) (x : α) : Prop where
  here : xs[place]? = some x
  holds : faulty x
  before : ∀ y ∈ xs.take place, ¬ faulty y

section
variable {α : Type} {faulty : α → Prop} {xs : List α} {place : Nat} {x y : α}

theorem not_first_nil : ¬ First faulty [] place x := by
  intro h
  cases h.here

theorem first_cons_of_faulty (hx : faulty x) :
    First faulty (x :: xs) place y ↔ place = 0 ∧ y = x := by
  constructor
  · intro h
    cases place with
    | zero => exact ⟨rfl, (Option.some.inj h.here).symm⟩
    | succ place => exact absurd hx (h.before x List.mem_cons_self)
  · rintro ⟨rfl, rfl⟩
    exact ⟨rfl, hx, fun _ hy => absurd hy List.not_mem_nil⟩

theorem first_cons_of_not_faulty (hx : ¬ faulty x) :
    First faulty (x :: xs) place y ↔ ∃ k, place = k + 1 ∧ First faulty xs k y := by
  constructor
  · intro h
    cases place with
    | zero =>
      cases h.here
      exact absurd h.holds hx
    | succ place =>
      exact ⟨place, rfl, h.here, h.holds, fun z hz => h.before z (List.mem_cons_of_mem x hz)⟩
  · rintro ⟨k, rfl, h⟩
    refine ⟨h.here, h.holds, fun z hz => ?_⟩
    rcases List.mem_cons.1 hz with rfl | hz
    · exact hx
    · exact h.before z hz

end

section
variable {α β ε : Type} {xs : List α} {f : α → Except ε β}

theorem mapM_cons_eq (x : α) : (x :: xs).mapM f = (f x).bind fun y => (xs.mapM f).map (y :: ·) := by
  rw [List.mapM_cons]
  cases f x with
  | error e => rfl
  | ok y => cases xs.mapM f <;> rfl

/-- A list is read element by element. -/
theorem mapM_eq_ok_iff {ys : List β} :
    xs.mapM f = .ok ys ↔ List.Forall₂ (fun x y => f x = .ok y) xs ys := by
  induction xs generalizing ys with
  | nil => simp [pure, Except.pure, eq_comm]
  | cons x xs ih =>
    rw [mapM_cons_eq, bind_eq_ok_iff, List.forall₂_cons_left_iff]
    simp only [map_eq_ok_iff, ih]
    constructor
    · rintro ⟨y, hy, ys, hys, rfl⟩
      exact ⟨y, ys, hy, hys, rfl⟩
    · rintro ⟨y, ys, hy, hys, rfl⟩
      exact ⟨y, hy, ys, hys, rfl⟩

/-- Reading a list fails at the first element that cannot be read. -/
theorem mapM_eq_error_iff {faulty : α → Prop} (hf : ∀ x, faulty x ↔ ∃ e, f x = .error e) {e : ε} :
    xs.mapM f = .error e ↔ ∃ place x, First faulty xs place x ∧ f x = .error e := by
  induction xs with
  | nil => simp [not_first_nil, pure, Except.pure]
  | cons x xs ih =>
    rw [mapM_cons_eq]
    -- the first element fails, or the first failure is among the others
    cases hx : f x with
    | error other =>
      simp only [first_cons_of_faulty ((hf x).2 ⟨other, hx⟩)]
      simp [Except.bind, hx]
    | ok y =>
      have hn : ¬ faulty x := by simp [hf, hx]
      simp only [first_cons_of_not_faulty hn]
      change (xs.mapM f).map (y :: ·) = .error e ↔ _
      rw [map_eq_error_iff, ih]
      constructor
      · rintro ⟨k, z, h, hz⟩
        exact ⟨k + 1, z, ⟨k, rfl, h⟩, hz⟩
      · rintro ⟨_, z, ⟨k, rfl, h⟩, hz⟩
        exact ⟨k, z, h, hz⟩

end

/-! ## Lines -/

/-- What a line says: a label for each of its markers, and an instruction if a
    mnemonic follows, with an operand for each token after it. -/
inductive ReadsLine : List String → List Statement → Prop
  | labels {markers names} : List.Forall₂ Marks markers names →
      ReadsLine markers (names.map .label)
  | instruction {markers names mnemonic rest operands} : List.Forall₂ Marks markers names →
      ¬ IsMarker mnemonic → List.Forall₂ ReadsOperand rest operands →
      ReadsLine (markers ++ mnemonic :: rest)
        (names.map .label ++ [.instruction mnemonic operands])

/-- The tokens after the mnemonic, which is the first token that is no marker. -/
inductive FollowsMnemonic : List String → List String → Prop
  | mk {markers mnemonic rest} : (∀ token ∈ markers, IsMarker token) → ¬ IsMarker mnemonic →
      FollowsMnemonic (markers ++ mnemonic :: rest) rest

/-- All tokens after the mnemonic are operands, and none is a marker. -/
def AcceptsLine (tokens : List String) : Prop :=
  ∀ rest, FollowsMnemonic tokens rest → ∀ token ∈ rest, ¬ IsMarker token ∧ IsOperand token

def RejectsLine (tokens : List String) : Prop :=
  ¬ AcceptsLine tokens

/-- The fault of the leftmost token that violates the grammar. -/
def LineFault (tokens : List String) (fault : TokenFault) : Prop :=
  ∃ rest place token, FollowsMnemonic tokens rest ∧ First Violates rest place token ∧
    Violation token fault

/-- The leftmost violation in the first line that is rejected. -/
def FirstViolation (lines : List (List String)) (e : ParseError) : Prop :=
  ∃ tokens, First RejectsLine lines e.line tokens ∧
    LineFault tokens e.fault

namespace Statement

variable {tokens markers names rest : List String} {mnemonic : String}

theorem ofTokens_markers (h : List.Forall₂ Marks markers names) (tail : List String) :
    ofTokens (markers ++ tail) = (ofTokens tail).map (names.map label ++ ·) := by
  induction h with
  | nil =>
    rw [List.nil_append]
    cases ofTokens tail <;> rfl
  | cons hm _ ih =>
    rw [List.cons_append, ofTokens, markedLabel?_eq_some_iff_marks.2 hm]
    simp only [ih]
    cases ofTokens tail <;> rfl

theorem ofTokens_mnemonic (hms : List.Forall₂ Marks markers names) (hm : ¬ IsMarker mnemonic)
    (rest : List String) :
    ofTokens (markers ++ mnemonic :: rest) = (rest.mapM Argument.ofToken).map fun operands =>
      names.map label ++ [instruction mnemonic operands] := by
  rw [ofTokens_markers hms, ofTokens, not_isMarker_iff.1 hm]
  cases rest.mapM Argument.ofToken <;> rfl

/-- A line starts with markers.  They are all of it, or a mnemonic follows. -/
theorem exists_markers (tokens : List String) :
    ∃ markers names, List.Forall₂ Marks markers names ∧
      (tokens = markers ∨ ∃ mnemonic rest, ¬ IsMarker mnemonic ∧
        tokens = markers ++ mnemonic :: rest) := by
  induction tokens with
  | nil => exact ⟨[], [], .nil, Or.inl rfl⟩
  | cons token tokens ih =>
    by_cases h : IsMarker token
    · obtain ⟨name, hn⟩ := h
      obtain ⟨markers, names, hms, ht⟩ := ih
      refine ⟨token :: markers, name :: names, .cons hn hms, ?_⟩
      rcases ht with rfl | ⟨mnemonic, rest, hm, rfl⟩
      · exact Or.inl rfl
      · exact Or.inr ⟨mnemonic, rest, hm, rfl⟩
    · exact ⟨[], [], .nil, Or.inr ⟨token, tokens, h, rfl⟩⟩

/-- **A line is read as what it says.** -/
theorem ofTokens_eq_ok_iff {statements : List Statement} :
    ofTokens tokens = .ok statements ↔ ReadsLine tokens statements := by
  constructor
  · intro h
    obtain ⟨markers, names, hms, rfl | ⟨mnemonic, rest, hm, rfl⟩⟩ := exists_markers tokens
    · have hl := ofTokens_markers hms []
      rw [List.append_nil, h] at hl
      cases hl
      simpa using ReadsLine.labels hms
    · rw [ofTokens_mnemonic hms hm] at h
      obtain ⟨operands, ho, rfl⟩ := map_eq_ok_iff.1 h
      simp only [mapM_eq_ok_iff, ofToken_eq_ok_iff] at ho
      exact .instruction hms hm ho
  · rintro (hms | ⟨hms, hm, ho⟩)
    · have hl := ofTokens_markers hms []
      rw [List.append_nil] at hl
      rw [hl]
      exact congrArg Except.ok (List.append_nil _)
    · rw [ofTokens_mnemonic hms hm, mapM_eq_ok_iff.2 (ho.imp fun _ _ => ofToken_eq_ok_iff.2)]
      rfl

/-- **A line is not read because of the leftmost violation.** -/
theorem ofTokens_eq_error_iff {fault : TokenFault} :
    ofTokens tokens = .error fault ↔ LineFault tokens fault := by
  have hf : ∀ token, Violates token ↔ ∃ fault, Argument.ofToken token = .error fault := by
    intro token
    simp only [ofToken_eq_error_iff, exists_violation_iff]
  constructor
  · intro h
    obtain ⟨markers, names, hms, rfl | ⟨mnemonic, rest, hm, rfl⟩⟩ := exists_markers tokens
    · cases h.symm.trans (ofTokens_eq_ok_iff.2 (.labels hms))
    · rw [ofTokens_mnemonic hms hm, map_eq_error_iff, mapM_eq_error_iff hf] at h
      obtain ⟨place, token, hfirst, ht⟩ := h
      have hall : ∀ token ∈ markers, IsMarker token := exists_forall₂_iff.1 ⟨names, hms⟩
      exact ⟨rest, place, token, ⟨hall, hm⟩, hfirst, ofToken_eq_error_iff.1 ht⟩
  · rintro ⟨rest, place, token, ⟨hall, hm⟩, hfirst, ht⟩
    obtain ⟨names, hms⟩ := exists_forall₂_iff.2 hall
    rw [ofTokens_mnemonic hms hm, map_eq_error_iff, mapM_eq_error_iff hf]
    exact ⟨place, token, hfirst, ofToken_eq_error_iff.2 ht⟩

theorem acceptsLine_iff : AcceptsLine tokens ↔ ∃ statements, ofTokens tokens = .ok statements := by
  constructor
  · intro h
    obtain ⟨markers, names, hms, rfl | ⟨mnemonic, rest, hm, rfl⟩⟩ := exists_markers tokens
    · exact ⟨_, ofTokens_eq_ok_iff.2 (.labels hms)⟩
    · have hall : ∀ token ∈ markers, IsMarker token := exists_forall₂_iff.1 ⟨names, hms⟩
      have hrest : ∀ token ∈ rest, IsOperand token := fun token ht => (h rest ⟨hall, hm⟩ token ht).2
      obtain ⟨operands, ho⟩ := exists_forall₂_iff.2 hrest
      exact ⟨_, ofTokens_eq_ok_iff.2 (.instruction hms hm ho)⟩
  · rintro ⟨statements, h⟩ rest ⟨hall, hm⟩ token ht
    obtain ⟨names, hms⟩ := exists_forall₂_iff.2 hall
    rw [ofTokens_mnemonic hms hm] at h
    obtain ⟨operands, ho, -⟩ := map_eq_ok_iff.1 h
    simp only [mapM_eq_ok_iff, ofToken_eq_ok_iff] at ho
    have hrest : ∀ token ∈ rest, IsOperand token := exists_forall₂_iff.1 ⟨operands, ho⟩
    exact ⟨fun hmarker => hmarker.not_isOperand (hrest token ht), hrest token ht⟩

variable {lines : List (List String)} {first : Nat}

/-- Lines are read one after the other. -/
theorem ofLinesFrom_eq_ok_iff {statements : List Statement} :
    ofLinesFrom first lines = .ok statements ↔
      ∃ parts, List.Forall₂ ReadsLine lines parts ∧ parts.flatten = statements := by
  induction lines generalizing first statements with
  | nil => simp [ofLinesFrom]
  | cons tokens lines ih =>
    rw [ofLinesFrom]
    constructor
    · intro h
      cases ht : ofTokens tokens with
      | error fault =>
        rw [ht] at h
        cases h
      | ok part =>
        rw [ht] at h
        obtain ⟨_, hl, rfl⟩ := map_eq_ok_iff.1 h
        obtain ⟨parts, hparts, rfl⟩ := ih.1 hl
        exact ⟨part :: parts, .cons (ofTokens_eq_ok_iff.1 ht) hparts, rfl⟩
    · rintro ⟨_, ht | ⟨ht, hparts⟩, rfl⟩
      rw [ofTokens_eq_ok_iff.2 ht]
      exact map_eq_ok_iff.2 ⟨_, ih.2 ⟨_, hparts, rfl⟩, rfl⟩

/-- Reading lines fails at the first one that is rejected. -/
theorem ofLinesFrom_eq_error_iff {e : ParseError} :
    ofLinesFrom first lines = .error e ↔
      ∃ place tokens, First RejectsLine lines place tokens ∧
        LineFault tokens e.fault ∧ e.line = first + place := by
  induction lines generalizing first with
  | nil => simp [ofLinesFrom, not_first_nil]
  | cons tokens lines ih =>
    rw [ofLinesFrom]
    cases ht : ofTokens tokens with
    | error fault =>
      have hr : RejectsLine tokens := by simp [RejectsLine, acceptsLine_iff, ht]
      have hfault : ∀ other, LineFault tokens other ↔ fault = other := by
        intro other
        rw [← ofTokens_eq_error_iff, ht, Except.error.injEq]
      constructor
      · intro h
        cases h
        exact ⟨0, tokens, (first_cons_of_faulty hr).2 ⟨rfl, rfl⟩, (hfault _).2 rfl, rfl⟩
      · rintro ⟨place, other, h, hf, hline⟩
        obtain ⟨rfl, rfl⟩ := (first_cons_of_faulty hr).1 h
        rw [(hfault _).1 hf]
        obtain ⟨line, other⟩ := e
        cases hline
        rfl
    | ok part =>
      -- the rest is read with the next number, so its places shift by one
      have ha : ¬ RejectsLine tokens := not_not_intro (acceptsLine_iff.2 ⟨part, ht⟩)
      change (ofLinesFrom (first + 1) lines).map (part ++ ·) = .error e ↔ _
      rw [map_eq_error_iff, ih]
      constructor
      · rintro ⟨place, other, h, hf, hline⟩
        exact ⟨place + 1, other, (first_cons_of_not_faulty ha).2 ⟨place, rfl, h⟩, hf, by omega⟩
      · rintro ⟨_, other, h, hf, hline⟩
        obtain ⟨place, rfl, hrest⟩ := (first_cons_of_not_faulty ha).1 h
        exact ⟨place, other, hrest, hf, by omega⟩

/-- **The reader of lines accepts its grammar and reports the first violation.**
    It succeeds iff it accepts every line; it then gives what the lines say, in
    their order.  Otherwise its error is the leftmost violation in the first line
    that has one. -/
theorem ofLines_exact (lines : List (List String)) :
    ((∃ statements, ofLines lines = .ok statements) ↔ ∀ tokens ∈ lines, AcceptsLine tokens) ∧
      (∀ statements, ofLines lines = .ok statements ↔
        ∃ parts, List.Forall₂ ReadsLine lines parts ∧ parts.flatten = statements) ∧
      ∀ e, ofLines lines = .error e ↔ FirstViolation lines e := by
  refine ⟨?_, fun statements => ofLinesFrom_eq_ok_iff, fun e => ?_⟩
  · have hl : (∃ statements, ofLines lines = .ok statements) ↔
        ∃ parts, List.Forall₂ ReadsLine lines parts := by
      simp only [ofLines, ofLinesFrom_eq_ok_iff]
      constructor
      · rintro ⟨_, parts, hparts, -⟩
        exact ⟨parts, hparts⟩
      · rintro ⟨parts, hparts⟩
        exact ⟨_, parts, hparts, rfl⟩
    rw [hl, exists_forall₂_iff]
    simp only [acceptsLine_iff, ofTokens_eq_ok_iff]
  · rw [ofLines, ofLinesFrom_eq_error_iff]
    constructor
    · rintro ⟨place, tokens, h, hf, hline⟩
      obtain rfl : e.line = place := by omega
      exact ⟨tokens, h, hf⟩
    · rintro ⟨tokens, h, hf⟩
      exact ⟨e.line, tokens, h, hf, by omega⟩

/-- Two tokens violate the grammar; the left one is reported, whatever its kind. -/
example :
    ofLines [["start:", "mov", "rax", "5"], [], ["inc", "rax", "end:", "5x"]] =
      .error ⟨2, .unexpectedLabel "end:"⟩ := by
  decide

end Statement

end RegisterMachine
