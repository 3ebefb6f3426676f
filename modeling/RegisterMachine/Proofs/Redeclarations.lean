/-
  Labels that are declared again.

  A label may be declared many times.  Each time but the first is reported, with
  the index of the statement, the place that the label had and its new place.

  * `redeclaration? code place`: the report on the statement at a place, and
    `Redeclares code place event`: what it says about the declaration before it;
  * `Traces code labels events`: how a table grows and what is reported, with one
    statement more at the end.  `traces_of_ofStatements`: so labels are bound;
  * `Traces.events_eq`, `Traces.replay_eq`, `Traces.length_add`: the events are the
    reports in order, they lead from the first declarations to the table, and there
    is one for each label that is not among the first;
  * `redeclarations_reported`: all of this for the labels of statements, and the
    reports before the first invalid label if there is one.
-/
import RegisterMachine.Proofs.Diagnosis

namespace RegisterMachine

/-! ## Reports -/

namespace Statement

def isLabel : Statement → Bool
  | label _ => true
  | instruction .. => false

/-- The report on the statement at a place: none, unless it declares a label that
    is declared before. -/
def redeclaration? (code : List Statement) (place : Nat) : Option Event :=
  match code[place]? with
  | some (.label name) =>
    (lastDeclaration? name (code.take place)).map fun old =>
      .labelMoved name place (callsBefore code old) (callsBefore code place)
  | some (.instruction ..) | none => none

/-- A label is declared at a place, and the last time before it at another.  The
    report gives its statement and the instructions before both. -/
inductive Redeclares (code : List Statement) : Nat → Event → Prop
  | mk {place name old} : code[place]? = some (.label name) →
      LastDeclaration (code.take place) name old →
      Redeclares code place
        (.labelMoved name place (callsBefore code old) (callsBefore code place))

/-- The entry of the statement at a place: none, unless it declares a label that
    is not declared before. -/
def firstDeclaration? (code : List Statement) (place : Nat) : Option (String × Nat) :=
  match code[place]? with
  | some (.label name) =>
    if .label name ∈ code.take place then none else some (name, callsBefore code place)
  | some (.instruction ..) | none => none

/-- The first declarations of all labels. -/
def firstDeclarations (code : List Statement) : Labels :=
  (List.range code.length).filterMap (firstDeclaration? code)

theorem redeclaration?_eq_some_iff {code : List Statement} {place : Nat} {event : Event} :
    redeclaration? code place = some event ↔ Redeclares code place event := by
  unfold redeclaration?
  constructor
  · intro h
    split at h
    · next name hn =>
      obtain ⟨old, ho, rfl⟩ := Option.map_eq_some_iff.1 h
      exact .mk hn (lastDeclaration?_eq_some_iff.1 ho)
    · cases h
    · cases h
  · rintro ⟨hn, ho⟩
    rw [hn]
    simp only [lastDeclaration?_eq_some_iff.2 ho, Option.map_some]

/-! ## Statements at the end -/

theorem LastDeclaration.lt {code : List Statement} {name : String} {place : Nat}
    (h : LastDeclaration code name place) : place < code.length :=
  (List.getElem?_eq_some_iff.1 h.here).1

theorem callsBefore_append {code : List Statement} {place : Nat} (h : place ≤ code.length)
    (later : List Statement) : callsBefore (code ++ later) place = callsBefore code place := by
  rw [callsBefore, List.take_append_of_le_length h, callsBefore]

theorem redeclaration?_append {code : List Statement} {place : Nat} (h : place < code.length)
    (later : List Statement) :
    redeclaration? (code ++ later) place = redeclaration? code place := by
  unfold redeclaration?
  rw [List.getElem?_append_left h, List.take_append_of_le_length h.le, callsBefore_append h.le]
  split
  · refine Option.map_congr fun old ho => ?_
    have hlt : old < (code.take place).length := (lastDeclaration?_eq_some_iff.1 ho).lt
    rw [List.length_take_of_le h.le] at hlt
    rw [callsBefore_append (hlt.trans h).le]
  · rfl
  · rfl

theorem firstDeclaration?_append {code : List Statement} {place : Nat} (h : place < code.length)
    (later : List Statement) :
    firstDeclaration? (code ++ later) place = firstDeclaration? code place := by
  unfold firstDeclaration?
  rw [List.getElem?_append_left h, List.take_append_of_le_length h.le, callsBefore_append h.le]

section
variable {α : Type} {f : List Statement → Nat → Option α}
  (hf : ∀ {code : List Statement} {place : Nat}, place < code.length →
    ∀ later, f (code ++ later) place = f code place)
include hf

/-- What is found at the places of statements does not depend on later ones. -/
theorem filterMap_range_append (code later : List Statement) :
    (List.range code.length).filterMap (f (code ++ later)) =
      (List.range code.length).filterMap (f code) :=
  List.filterMap_congr fun _ hp => hf (List.mem_range.1 hp) later

theorem filterMap_range_concat (code : List Statement) (s : Statement) :
    (List.range (code ++ [s]).length).filterMap (f (code ++ [s])) =
      (List.range code.length).filterMap (f code) ++ (f (code ++ [s]) code.length).toList := by
  rw [List.length_append, List.length_singleton, List.range_succ, List.filterMap_append,
    filterMap_range_append hf]
  cases h : f (code ++ [s]) code.length <;> simp [h]

end

section
variable (code : List Statement) (name word : String) (operands : List Argument)

theorem callsBefore_concat (s : Statement) :
    callsBefore (code ++ [s]) code.length = (calls code).length := by
  rw [callsBefore_append le_rfl, callsBefore, List.take_length]

theorem redeclaration?_instruction :
    redeclaration? (code ++ [.instruction word operands]) code.length = none := by
  rw [redeclaration?, List.getElem?_concat_length]

theorem redeclaration?_label :
    redeclaration? (code ++ [.label name]) code.length = (lastDeclaration? name code).map fun old =>
      .labelMoved name code.length (callsBefore code old) (calls code).length := by
  rw [redeclaration?, List.getElem?_concat_length]
  simp only [List.take_left, callsBefore_concat]
  refine Option.map_congr fun old ho => ?_
  rw [callsBefore_append (lastDeclaration?_eq_some_iff.1 ho).lt.le]

theorem firstDeclaration?_instruction :
    firstDeclaration? (code ++ [.instruction word operands]) code.length = none := by
  rw [firstDeclaration?, List.getElem?_concat_length]

theorem firstDeclaration?_label :
    firstDeclaration? (code ++ [.label name]) code.length =
      if .label name ∈ code then none else some (name, (calls code).length) := by
  rw [firstDeclaration?, List.getElem?_concat_length]
  simp only [List.take_left, callsBefore_concat]

end

end Statement

open Statement

/-! ## Tables that grow -/

namespace Labels

/-- How a table grows with the statements and what is reported.  A label that is
    new comes to its end, and one that is declared before moves. -/
inductive Traces : List Statement → Labels → List Event → Prop
  | nil : Traces [] [] []
  | instruction {code labels events word operands} : Traces code labels events →
      Traces (code ++ [.instruction word operands]) labels events
  | first {code labels events name} : Traces code labels events → .label name ∉ code →
      Traces (code ++ [.label name]) (labels ++ [(name, (calls code).length)]) events
  | again {code labels events name old} : Traces code labels events →
      LastDeclaration code name old →
      Traces (code ++ [.label name]) (labels.declare name (calls code).length)
        (events ++ [.labelMoved name code.length (callsBefore code old) (calls code).length])

/-- A name that is not bound is bound at the end. -/
theorem declare_of_not_mem {labels : Labels} {name : String} (h : name ∉ labels.map Prod.fst)
    (index : Nat) : labels.declare name index = labels ++ [(name, index)] := by
  induction labels with
  | nil => rfl
  | cons entry rest ih =>
    simp only [List.map_cons, List.mem_cons, not_or] at h
    rw [declare, if_neg (by simpa using h.1), ih h.2, List.cons_append]

/-- A name that is bound keeps its place. -/
theorem keys_declare {labels : Labels} {name : String} (h : name ∈ labels.map Prod.fst)
    (index : Nat) : (labels.declare name index).map Prod.fst = labels.map Prod.fst := by
  induction labels with
  | nil => cases h
  | cons entry rest ih =>
    unfold declare
    split_ifs with hn
    · rw [beq_iff_eq] at hn
      rw [List.map_cons, List.map_cons, hn]
    · rw [beq_iff_eq] at hn
      rw [List.map_cons, List.map_cons, ih ((List.mem_cons.1 h).resolve_left hn)]

theorem length_declare {labels : Labels} {name : String} (h : name ∈ labels.map Prod.fst)
    (index : Nat) : (labels.declare name index).length = labels.length := by
  have hkeys := congrArg List.length (keys_declare h index)
  rwa [List.length_map, List.length_map] at hkeys

theorem declare_append {labels : Labels} {name : String} (h : name ∈ labels.map Prod.fst)
    (index : Nat) (later : Labels) :
    (labels ++ later).declare name index = labels.declare name index ++ later := by
  induction labels with
  | nil => cases h
  | cons entry rest ih =>
    rw [List.cons_append, declare, declare]
    split_ifs with hn
    · rfl
    · rw [beq_iff_eq] at hn
      rw [ih ((List.mem_cons.1 h).resolve_left hn), List.cons_append]

end Labels

/-! ## Binding statement by statement -/

theorem Report.after_andThen {ε α β : Type} (report : Report ε α) (events : List Event)
    (next : α → Report ε β) :
    (report.after events).andThen next = (report.andThen next).after events := by
  obtain ⟨before, e | value⟩ := report
  · rfl
  · simp [after, andThen]

namespace Labels

/-- The labels of statements are added after those of the statements before. -/
theorem addStatements_append {labels : Labels} {statement position : Nat}
    (code later : List Statement) :
    labels.addStatements statement position (code ++ later) =
      (labels.addStatements statement position code).andThen fun table =>
        table.addStatements (statement + code.length) (position + (calls code).length) later := by
  induction code generalizing labels statement position with
  | nil => rfl
  | cons s rest ih =>
    rw [List.cons_append, List.length_cons, ← Nat.add_assoc, Nat.add_right_comm]
    cases s with
    | instruction word operands =>
      rw [addStatements, addStatements, ih, calls_instruction, List.length_cons, ← Nat.add_assoc,
        Nat.add_right_comm position]
    | label name =>
      rw [addStatements, addStatements, calls_label]
      split_ifs
      · rw [ih, Report.after_andThen]
      · rfl

theorem ofStatements_append (code later : List Statement) :
    ofStatements (code ++ later) = (ofStatements code).andThen fun labels =>
      labels.addStatements code.length (calls code).length later := by
  have h := @addStatements_append [] 0 0 code later
  rwa [Nat.zero_add, Nat.zero_add] at h

theorem ofStatements_append_of_ok {code : List Statement} {labels : Labels} {events : List Event}
    (h : ofStatements code = ⟨events, .ok labels⟩) (later : List Statement) :
    ofStatements (code ++ later) =
      (labels.addStatements code.length (calls code).length later).after events := by
  rw [ofStatements_append, h]
  rfl

theorem addStatements_instruction (labels : Labels) (statement position : Nat) (word : String)
    (operands : List Argument) :
    labels.addStatements statement position [.instruction word operands] = ⟨[], .ok labels⟩ := rfl

theorem addStatements_label {name : String} (h : isLabelName name = true) (labels : Labels)
    (statement position : Nat) :
    labels.addStatements statement position [.label name] =
      ⟨labels.moved name statement position, .ok (labels.declare name position)⟩ := by
  rw [addStatements, if_pos h, addStatements, Report.after, Report.of, List.append_nil]

theorem addStatements_invalid {name : String} (h : isLabelName name = false) (labels : Labels)
    (statement position : Nat) (later : List Statement) :
    labels.addStatements statement position (.label name :: later) =
      ⟨[], .error ⟨statement, .invalidLabel name⟩⟩ := by
  rw [addStatements, if_neg (by simp [h])]
  rfl

theorem Traces.mem_keys_iff {code : List Statement} {labels : Labels} {events : List Event}
    (h : Traces code labels events) {name : String} :
    name ∈ labels.map Prod.fst ↔ .label name ∈ code := by
  induction h with
  | nil => simp
  | instruction _ ih => simp [ih]
  | first _ _ ih => simp [ih]
  | again _ _ ih => simp [mem_keys_declare, ih, or_comm]

/-- **Labels are bound statement by statement.** -/
theorem traces_of_ofStatements {code : List Statement} {labels : Labels} {events : List Event}
    (h : ofStatements code = ⟨events, .ok labels⟩) : Traces code labels events := by
  induction code using List.reverseRecOn generalizing labels events with
  | nil =>
    cases h
    exact .nil
  | append_singleton code s ih =>
    rcases hc : ofStatements code with ⟨before, e | table⟩
    · rw [ofStatements_append, hc] at h
      cases h
    · have htrace : Traces code table before := ih hc
      rw [ofStatements_append_of_ok hc] at h
      cases s with
      | instruction word operands =>
        rw [addStatements_instruction, Report.after, List.append_nil] at h
        cases h
        exact .instruction htrace
      | label name =>
        cases hn : isLabelName name with
        | false =>
          rw [addStatements_invalid hn] at h
          cases h
        | true =>
          -- what the table has for the name is its last declaration so far
          have hindex := (binds_of_ofStatements (congrArg Report.result hc)).index? name
          rw [addStatements_label hn, Report.after, moved, hindex] at h
          cases hl : lastDeclaration? name code with
          | none =>
            have hm : .label name ∉ code := lastDeclaration?_eq_none_iff.1 hl
            simp only [hl, Option.map_none, List.append_nil,
              declare_of_not_mem (htrace.mem_keys_iff.not.2 hm)] at h
            cases h
            exact .first htrace hm
          | some old =>
            rw [hl] at h
            cases h
            exact .again htrace (lastDeclaration?_eq_some_iff.1 hl)

end Labels

/-! ## What is reported -/

/-- Moves a label as it is reported. -/
def Labels.replay (labels : Labels) : Event → Labels
  | .labelMoved name _ _ new => labels.declare name new
  | .running _ | .defined .. | .including _ | .assembled .. | .executed .. | .halted .. => labels

namespace Statement

section
variable (code : List Statement)

theorem firstDeclarations_instruction (word : String) (operands : List Argument) :
    firstDeclarations (code ++ [.instruction word operands]) = firstDeclarations code := by
  rw [firstDeclarations, filterMap_range_concat firstDeclaration?_append,
    firstDeclaration?_instruction, Option.toList_none, List.append_nil, firstDeclarations]

theorem firstDeclarations_label (name : String) :
    firstDeclarations (code ++ [.label name]) = firstDeclarations code ++
      if .label name ∈ code then [] else [(name, (calls code).length)] := by
  rw [firstDeclarations, filterMap_range_concat firstDeclaration?_append, firstDeclaration?_label,
    firstDeclarations]
  split_ifs <;> rfl

end

end Statement

namespace Labels

/-- Reports on labels of a table leave what comes after it. -/
theorem foldl_replay_append {labels : Labels} {events : List Event}
    (h : ∀ event ∈ events, ∃ name statement old new,
      event = .labelMoved name statement old new ∧ name ∈ labels.map Prod.fst)
    (later : Labels) :
    events.foldl replay (labels ++ later) = events.foldl replay labels ++ later := by
  induction events generalizing labels with
  | nil => rfl
  | cons event rest ih =>
    obtain ⟨⟨name, statement, old, new, rfl, hn⟩, hrest⟩ := List.forall_mem_cons.1 h
    rw [List.foldl_cons, List.foldl_cons, replay, replay, declare_append hn]
    refine ih fun event he => ?_
    rw [keys_declare hn]
    exact hrest event he

namespace Traces

variable {code : List Statement} {labels : Labels} {events : List Event}
  (h : Traces code labels events)
include h

/-- **The events are the reports on the statements, in order.** -/
theorem events_eq : events = (List.range code.length).filterMap (redeclaration? code) := by
  induction h with
  | nil => rfl
  | instruction _ ih =>
    rw [filterMap_range_concat redeclaration?_append, redeclaration?_instruction, ← ih,
      Option.toList_none, List.append_nil]
  | first _ hn ih =>
    rw [filterMap_range_concat redeclaration?_append, redeclaration?_label, ← ih,
      lastDeclaration?_eq_none_iff.2 hn, Option.map_none, Option.toList_none, List.append_nil]
  | again _ hl ih =>
    rw [filterMap_range_concat redeclaration?_append, redeclaration?_label, ← ih,
      lastDeclaration?_eq_some_iff.2 hl, Option.map_some, Option.toList_some]

/-- An event moves a label of the statements. -/
theorem exists_label {event : Event} (he : event ∈ events) :
    ∃ name statement old new, event = .labelMoved name statement old new ∧ .label name ∈ code := by
  rw [h.events_eq] at he
  obtain ⟨place, -, hp⟩ := List.mem_filterMap.1 he
  obtain ⟨hn, -⟩ := redeclaration?_eq_some_iff.1 hp
  exact ⟨_, _, _, _, rfl, List.mem_of_getElem? hn⟩

/-- The names of a table are in the order of their first declarations. -/
theorem keys_firstDeclarations : (firstDeclarations code).map Prod.fst = labels.map Prod.fst := by
  induction h with
  | nil => rfl
  | instruction _ ih => rw [firstDeclarations_instruction, ih]
  | first _ hn ih => rw [firstDeclarations_label, if_neg hn, List.map_append, List.map_append, ih]
  | again htrace hl ih =>
    rw [firstDeclarations_label, if_pos hl.mem, List.append_nil, ih,
      keys_declare (htrace.mem_keys_iff.2 hl.mem)]

/-- **The events lead from the first declarations to the table.** -/
theorem replay_eq : events.foldl replay (firstDeclarations code) = labels := by
  induction h with
  | nil => rfl
  | instruction _ ih => rw [firstDeclarations_instruction, ih]
  | first htrace hn ih =>
    rw [firstDeclarations_label, if_neg hn, foldl_replay_append, ih]
    intro event he
    obtain ⟨name, statement, old, new, rfl, hm⟩ := htrace.exists_label he
    refine ⟨name, statement, old, new, rfl, ?_⟩
    rwa [htrace.keys_firstDeclarations, htrace.mem_keys_iff]
  | again _ hl ih =>
    rw [firstDeclarations_label, if_pos hl.mem, List.append_nil, List.foldl_append, ih]
    rfl

/-- **Each label has an event or an entry of its own.** -/
theorem length_add : events.length + labels.length = code.countP isLabel := by
  induction h with
  | nil => rfl
  | instruction _ ih =>
    rw [List.countP_append, ← ih]
    rfl
  | first _ _ ih =>
    rw [List.countP_append, ← ih, List.length_append, ← Nat.add_assoc]
    rfl
  | again htrace hl ih =>
    rw [List.countP_append, ← ih, List.length_append,
      length_declare (htrace.mem_keys_iff.2 hl.mem), Nat.add_right_comm]
    rfl

end Traces

/-- Where the labels of statements are no longer bound: at the first one with a
    fault, or at the end. -/
inductive Stop (code : List Statement) : Nat → Prop
  | fault {place fault} : FirstFault HasLabelFault code place fault → Stop code place
  | done : (∀ s ∈ code, ∀ other, ¬ HasLabelFault s other) → Stop code code.length

/-- Nothing is reported from the first invalid label on. -/
theorem events_of_firstFault {code : List Statement} {place : Nat} {fault : AssemblyFault}
    (h : FirstFault HasLabelFault code place fault) :
    (ofStatements code).events = (List.range place).filterMap (redeclaration? code) := by
  obtain ⟨s, hs, hfault⟩ := h.here
  obtain ⟨before, later, rfl, rfl⟩ : ∃ before later, code = before ++ s :: later ∧
      place = before.length := by
    obtain ⟨hlt, hget⟩ := List.getElem?_eq_some_iff.1 hs
    refine ⟨code.take place, code.drop (place + 1), ?_, (List.length_take_of_le hlt.le).symm⟩
    rw [← hget, ← List.drop_eq_getElem_cons hlt, List.take_append_drop]
  have hnames : ∀ name, .label name ∈ before → isLabelName name = true := by
    intro name hm
    by_contra hn
    rw [Bool.not_eq_true] at hn
    refine h.before _ ?_ _ (hasLabelFault_iff.2 ⟨hn, rfl⟩)
    rwa [List.take_left]
  obtain ⟨labels, hlabels⟩ := exists_ofStatements_iff.2 hnames
  rcases hb : ofStatements before with ⟨events, result⟩
  rw [hb] at hlabels
  obtain rfl : result = .ok labels := hlabels
  cases s with
  | instruction => cases hfault
  | label name =>
    rw [ofStatements_append_of_ok hb, addStatements_invalid (hasLabelFault_iff.1 hfault).1,
      filterMap_range_append redeclaration?_append, ← (traces_of_ofStatements hb).events_eq]
    exact List.append_nil _

theorem exists_stop (code : List Statement) :
    ∃ stop, Stop code stop ∧
      (ofStatements code).events = (List.range stop).filterMap (redeclaration? code) := by
  rcases hc : ofStatements code with ⟨events, ⟨place, fault⟩ | labels⟩
  · have hfirst := ofStatements_eq_error_iff.1 (congrArg Report.result hc)
    refine ⟨place, .fault hfirst, ?_⟩
    rw [← events_of_firstFault hfirst, hc]
  · refine ⟨code.length, .done fun s hs other ho => ?_, (traces_of_ofStatements hc).events_eq⟩
    cases s with
    | instruction => cases ho
    | label name =>
      have hn := exists_ofStatements_iff.1 ⟨labels, congrArg Report.result hc⟩ name hs
      rw [(hasLabelFault_iff.1 ho).1] at hn
      cases hn

/-- **Every label that is declared again is reported, and nothing else.**  The
    events are, in order, the reports on the statements before the first invalid
    label, or on all of them.  If the labels can be bound, the events lead from the
    first declarations to the table, and there is one for each label that is not
    among those. -/
theorem redeclarations_reported (code : List Statement) :
    (∃ stop, Stop code stop ∧
        (ofStatements code).events = (List.range stop).filterMap (redeclaration? code)) ∧
      (∀ place event, redeclaration? code place = some event ↔ Redeclares code place event) ∧
      ∀ labels, (ofStatements code).result = .ok labels →
        (ofStatements code).events.foldl replay (firstDeclarations code) = labels ∧
          (ofStatements code).events.length + labels.length = code.countP isLabel := by
  refine ⟨exists_stop code, fun _ _ => redeclaration?_eq_some_iff, fun labels h => ?_⟩
  have htrace : Traces code labels (ofStatements code).events :=
    traces_of_ofStatements (by rw [← h])
  exact ⟨htrace.replay_eq, htrace.length_add⟩

/-- Two labels move, one of them twice.  After the invalid label nothing is
    reported. -/
example :
    ofStatements [.label "a", .instruction "jmp" [.name "b"], .label "b", .label "a",
        .instruction "jmp" [.name "a"], .label "a", .label "b"] =
      ⟨[.labelMoved "a" 3 0 1, .labelMoved "a" 5 1 2, .labelMoved "b" 6 1 2],
        .ok [("a", 2), ("b", 2)]⟩ ∧
    ofStatements [.label "a", .label "a", .label "ax", .label "a"] =
      ⟨[.labelMoved "a" 1 0 0], .error ⟨2, .invalidLabel "ax"⟩⟩ := by
  exact ⟨rfl, rfl⟩

end Labels

end RegisterMachine
