/-
  What a run reports.

  A run records each instruction before it carries it out, and so before it is
  known whether the step is faulty.  A summary follows if the machine halts.

  * `length_trace`, `getElem?_trace`: a trace has one record for each step that is
    counted, with the place and the instruction of the state before the step;
  * `LeadsTo m i index`: where a machine goes on after an instruction, and
    `Program.ListsSteps p records`: records that list the first steps of a program;
  * `Program.Reports p limit report`: how a report belongs to the way in which the
    run ends.  `Program.loopEvents`: the events of the loop, round by round;
  * `FaithfulLog p limit`: what the events of a run say about it.  `faithfulLog`: they
    do so for every program and limit.
-/
import RegisterMachine.Proofs.Cutoff
import RegisterMachine.Proofs.Stepping

namespace RegisterMachine

/-! ## Traces -/

namespace Machine

variable {p : Program} {m : Machine} {n k : Nat}

theorem trace_of_isHalted (h : m.isHalted p = true) (budget : Nat) : trace p budget m = [] := by
  cases budget with
  | zero => rfl
  | succ budget => rw [trace, nextEvent?, isHalted_iff_getElem?.1 h, Option.map_none]

theorem nextEvent?_eq_some_iff {event : Event} :
    m.nextEvent? p = some event ↔
      ∃ i, p.instructions[m.pc]? = some i ∧ event = .executed m.pc i := by
  simp only [nextEvent?, Option.map_eq_some_iff, @eq_comm _ event]

/-- A machine that has not halted has an instruction to record. -/
theorem exists_nextEvent? (h : m.isHalted p = false) :
    ∃ i, m.nextEvent? p = some (.executed m.pc i) := by
  obtain ⟨i, hi⟩ : ∃ i, p.instructions[m.pc]? = some i :=
    Option.ne_none_iff_exists'.1 (isHalted_iff_getElem?.not.1 (by simp [h]))
  exact ⟨i, nextEvent?_eq_some_iff.2 ⟨i, hi, rfl⟩⟩

/-- A step that is not faulty is recorded before all that comes after it. -/
theorem trace_succ (h : m.isHalted p = false) (hs : (m.step p).2 = none) (budget : Nat) :
    trace p (budget + 1) m = (m.nextEvent? p).toList ++ trace p budget (m.step p).1 := by
  obtain ⟨i, hi⟩ := exists_nextEvent? h
  have hp : m.step p = ((m.step p).1, none) := Prod.ext rfl hs
  rw [trace, hi, hp]
  rfl

/-- A faulty step is the last one that is recorded. -/
theorem trace_of_faulty {fault : JumpFault} (hs : (m.step p).2 = some fault) (budget : Nat) :
    trace p (budget + 1) m = (m.nextEvent? p).toList := by
  have hp : m.step p = ((m.step p).1, some fault) := Prod.ext rfl hs
  rw [trace, hp]
  cases m.nextEvent? p <;> rfl

/-- The steps that can be made are recorded first. -/
theorem Runs.trace_add (h : Runs p n m) (budget : Nat) :
    trace p (n + budget) m = trace p n m ++ trace p budget (after p n m) := by
  induction n generalizing m with
  | zero => rw [Nat.zero_add, trace, List.nil_append, after]
  | succ n ih =>
    obtain ⟨hh, hs⟩ : m.isHalted p = false ∧ (m.step p).2 = none := h 0 n.succ_pos
    rw [Nat.add_right_comm, trace_succ hh hs, trace_succ hh hs, ih h.tail, List.append_assoc, after]

theorem Runs.trace_of_isHalted (h : Runs p n m) (hh : (after p n m).isHalted p = true)
    {budget : Nat} (hn : n ≤ budget) : trace p budget m = trace p n m := by
  obtain ⟨rest, rfl⟩ := Nat.exists_eq_add_of_le hn
  rw [h.trace_add, Machine.trace_of_isHalted hh, List.append_nil]

theorem Runs.trace_of_faulty (h : Runs p n m) {fault : JumpFault}
    (hf : ((after p n m).step p).2 = some fault) {budget : Nat} (hn : n < budget) :
    trace p budget m = trace p n m ++ ((after p n m).nextEvent? p).toList := by
  obtain ⟨rest, rfl⟩ := Nat.exists_eq_add_of_lt hn
  rw [Nat.add_assoc, h.trace_add, Machine.trace_of_faulty hf]

theorem Runs.length_trace (h : Runs p n m) : (trace p n m).length = n := by
  induction n generalizing m with
  | zero => rfl
  | succ n ih =>
    obtain ⟨hh, hs⟩ : m.isHalted p = false ∧ (m.step p).2 = none := h 0 n.succ_pos
    obtain ⟨i, hi⟩ := exists_nextEvent? hh
    rw [trace_succ hh hs, hi, List.length_append, ih h.tail, Nat.add_comm]
    rfl

/-- All the steps before one that is recorded can be made. -/
theorem runs_of_lt_length {budget : Nat} (h : n < (trace p budget m).length) : Runs p n m := by
  induction budget generalizing n m with
  | zero => cases h
  | succ budget ih =>
    cases n with
    | zero => exact runs_zero p m
    | succ n =>
      have hevent : (m.nextEvent? p).toList.length ≤ 1 := Option.length_toList_le
      cases hh : m.isHalted p with
      | true =>
        rw [trace_of_isHalted hh] at h
        cases h
      | false =>
        cases hs : (m.step p).2 with
        | some fault =>
          rw [trace_of_faulty hs] at h
          omega
        | none =>
          rw [trace_succ hh hs, List.length_append] at h
          exact runs_succ hh hs (ih (by omega))

theorem length_trace_le (p : Program) (budget : Nat) (m : Machine) :
    (trace p budget m).length ≤ budget := by
  by_contra hlt
  have hr : Runs p budget m := runs_of_lt_length (Nat.lt_of_not_le hlt)
  exact hlt hr.length_trace.le

/-- **The record of a step has the place and the instruction of the state before.** -/
theorem getElem?_trace {budget : Nat} (h : k < (trace p budget m).length) :
    (trace p budget m)[k]? = (after p k m).nextEvent? p := by
  have hr : Runs p k m := runs_of_lt_length h
  obtain ⟨rest, rfl⟩ : ∃ rest, budget = k + (rest + 1) :=
    Nat.exists_eq_add_of_lt (h.trans_le (length_trace_le p budget m))
  rw [hr.trace_add, List.getElem?_append_right hr.length_trace.le, hr.length_trace, Nat.sub_self,
    trace]
  cases (after p k m).nextEvent? p <;> rfl

theorem exists_record {budget : Nat} (h : k < (trace p budget m).length) :
    ∃ i, p.instructions[(after p k m).pc]? = some i ∧
      (trace p budget m)[k] = .executed (after p k m).pc i := by
  rw [← nextEvent?_eq_some_iff, ← getElem?_trace h, List.getElem?_eq_getElem h]

/-- A trace has nothing but records. -/
theorem exists_executed {budget : Nat} {event : Event} (h : event ∈ trace p budget m) :
    ∃ index i, event = .executed index i := by
  obtain ⟨k, hk, rfl⟩ := List.getElem_of_mem h
  obtain ⟨i, -, hi⟩ := exists_record hk
  exact ⟨_, i, hi⟩

/-! ## Where a step leads -/

/-- Where a machine goes on after an instruction, if the step is not faulty: at the
    next one, or at the target of a jump that is taken. -/
inductive LeadsTo (m : Machine) : Instruction → Nat → Prop where
  | data {op lhs rhs} : LeadsTo m (.data op lhs rhs) (m.pc + 1)
  | passed {condition target} : condition.holds m.bank.comparison = false →
      LeadsTo m (.jump condition target) (m.pc + 1)
  | taken {condition} {target : Nat} : condition.holds m.bank.comparison = true →
      LeadsTo m (.jump condition target) target

theorem leadsTo_step {i : Instruction} (hi : p.instructions[m.pc]? = some i)
    (hs : (m.step p).2 = none) : LeadsTo m i (m.step p).1.pc := by
  have hto := stepsTo_step p m
  generalize m.step p = outcome at hto hs
  cases hto with
  | halted hh =>
    rw [isHalted_iff_getElem?.1 hh] at hi
    cases hi
  | data hi' =>
    cases hi.symm.trans hi'
    exact .data
  | passed hi' hc =>
    cases hi.symm.trans hi'
    exact .passed hc
  | taken hi' hc _ =>
    cases hi.symm.trans hi'
    exact .taken hc
  | faulty => cases hs

/-- The fault of a step is that of the jump there. -/
theorem exists_jump_of_faulty {fault : JumpFault} (hs : (m.step p).2 = some fault) :
    ∃ condition, m.nextEvent? p = some (.executed fault.source (.jump condition fault.target)) := by
  have hto := stepsTo_step p m
  generalize m.step p = outcome at hto hs
  cases hto with
  | halted | data | passed | taken => cases hs
  | @faulty condition target hi hc ht =>
    cases hs
    exact ⟨condition, nextEvent?_eq_some_iff.2 ⟨_, hi, rfl⟩⟩

end Machine

/-- The event that sums up a run that has halted. -/
def Event.isSummary : Event → Bool
  | halted .. => true
  | _ => false

namespace Program

open Machine

variable {p : Program} {limit : StepLimit} {n : Nat}

/-! ## Reports of runs -/

/-- Records that list the first steps of a program, as many as there are records. -/
structure ListsSteps (p : Program) (records : List Event) : Prop where
  /-- Each has the place and the instruction of the state before its step. -/
  record : ∀ k < records.length, ∃ i, p.instructions[(after p k {}).pc]? = some i ∧
    records[k]? = some (.executed (after p k {}).pc i)
  /-- The place of the next one is where the instruction leads. -/
  next : ∀ k pc i pc' i', records[k]? = some (.executed pc i) →
    records[k + 1]? = some (.executed pc' i') → LeadsTo (after p k {}) i pc'

/-- How the records of a run and its report belong to the way in which it ends. -/
inductive Reports (p : Program) (limit : StepLimit) (records : List Event) :
    Report ExecutionError Registers → Prop where
  /-- The summary comes last. -/
  | halted {registers : Registers} : records.length ≤ p.budget limit →
      p.HaltsAfter records.length registers →
      Reports p limit records
        ⟨records ++ [.halted p.size records.length registers], .ok registers⟩
  /-- The faulty jump is recorded last, after the steps that can be made. -/
  | faulted {n : Nat} {fault : JumpFault} : n < p.budget limit → p.FaultsAfter n fault →
      records.length = n + 1 →
      (∃ condition, records[n]? = some (.executed fault.source (.jump condition fault.target))) →
      Reports p limit records ⟨records, .error (.jumpOutOfRange fault)⟩
  /-- As many steps as the limit allows are recorded, and not the next one. -/
  | spent : p.Outlasts (p.budget limit) → records.length = p.budget limit →
      Reports p limit records ⟨records, .error (.stepLimitExceeded (p.budget limit))⟩

theorem listsSteps_trace (p : Program) (budget : Nat) :
    p.ListsSteps (Machine.trace p budget {}) where
  record k hk := by
    obtain ⟨i, hi, hrecord⟩ := exists_record hk
    exact ⟨i, hi, by rw [List.getElem?_eq_getElem hk, hrecord]⟩
  next k pc i pc' i' h h' := by
    obtain ⟨hk, -⟩ := List.getElem?_eq_some_iff.1 h
    obtain ⟨hk', -⟩ := List.getElem?_eq_some_iff.1 h'
    rw [getElem?_trace hk, nextEvent?_eq_some_iff] at h
    rw [getElem?_trace hk', nextEvent?_eq_some_iff] at h'
    obtain ⟨_, hi, ⟨⟩⟩ := h
    obtain ⟨_, -, ⟨⟩⟩ := h'
    have hr : Runs p (k + 1) {} := runs_of_lt_length hk'
    rw [after_succ]
    exact leadsTo_step hi (hr k k.lt_succ_self).2

theorem reports_run (p : Program) (limit : StepLimit) :
    p.Reports limit (p.trace limit) (p.run limit (some .trace)) := by
  have he : Ends p (p.budget limit) {} (p.finish limit) := ends_run p _ _
  have hrun : p.run limit (some .trace) =
      ⟨p.trace limit ++ p.summary (p.finish limit), p.result limit (p.finish limit)⟩ := rfl
  rw [hrun]
  generalize p.finish limit = last at he
  cases he with
  | halted n hn hr hh =>
    obtain rfl : (p.trace limit).length = n := by
      rw [trace, hr.trace_of_isHalted hh hn, hr.length_trace]
    rw [summary, hr.steps_fresh]
    exact .halted hn ⟨hr, hh, rfl⟩
  | faulted n fault hn hr hh hf =>
    obtain ⟨condition, hevent⟩ := exists_jump_of_faulty hf
    have htrace : p.trace limit = Machine.trace p n {} ++
        [.executed fault.source (.jump condition fault.target)] := by
      rw [trace, hr.trace_of_faulty hf hn, hevent]
      rfl
    rw [show p.summary (_, .faulted fault) = [] from rfl, List.append_nil]
    refine .faulted hn ⟨hr, hh, hf⟩ ?_ ⟨condition, ?_⟩
    · rw [htrace, List.length_append, hr.length_trace]
      rfl
    · rw [htrace, List.getElem?_append_right hr.length_trace.le, hr.length_trace, Nat.sub_self]
      rfl
  | spent hr hh =>
    rw [show p.summary (_, .spent) = [] from rfl, List.append_nil]
    exact .spent ⟨hr, hh⟩ hr.length_trace

/-- One record for each step that is counted, a faulty one included. -/
theorem length_trace (p : Program) (limit : StepLimit) :
    (p.trace limit).length = (p.finish limit).1.steps := by
  have he : Ends p (p.budget limit) {} (p.finish limit) := ends_run p _ _
  generalize p.finish limit = last at he
  cases he with
  | halted n hn hr hh => rw [trace, hr.trace_of_isHalted hh hn, hr.length_trace, hr.steps_fresh]
  | faulted n fault hn hr hh hf =>
    obtain ⟨i, hi⟩ := exists_nextEvent? hh
    rw [trace, hr.trace_of_faulty hf hn, hi, List.length_append, hr.length_trace, after_succ,
      step_steps hh, hr.steps_fresh]
    rfl
  | spent hr hh => rw [trace, hr.length_trace, hr.steps_fresh]

/-- A threshold hides events, and that is all it does. -/
theorem shown_run (p : Program) (limit : StepLimit) (threshold : Threshold) :
    (p.run limit threshold).shown threshold = (p.run limit (some .trace)).shown threshold := by
  cases ht : threshold.admits .trace with
  | true =>
    rw [run, run, ht]
    rfl
  | false =>
    have hhidden : (p.trace limit).filter (fun event => threshold.admits event.level) = [] := by
      rw [List.filter_eq_nil_iff]
      intro event he
      obtain ⟨index, i, rfl⟩ := exists_executed he
      rw [show (Event.executed index i).level = .trace from rfl, ht]
      exact Bool.false_ne_true
    have hall : (p.run limit (some .trace)).events =
        p.trace limit ++ p.summary (p.finish limit) := rfl
    have hsome : (p.run limit threshold).events = p.summary (p.finish limit) := by
      rw [run, ht]
      rfl
    rw [Report.shown, Report.shown, hall, hsome, List.filter_append, hhidden, List.nil_append]

/-- The summary comes once if there is a result, and not at all otherwise. -/
theorem countP_isSummary_run (p : Program) (limit : StepLimit) :
    (p.run limit (some .trace)).events.countP Event.isSummary =
      if (p.run limit (some .trace)).result.isOk then 1 else 0 := by
  have hrecords : (p.trace limit).countP Event.isSummary = 0 := by
    rw [List.countP_eq_zero]
    intro event he
    obtain ⟨index, i, rfl⟩ := exists_executed he
    exact Bool.false_ne_true
  have hr := reports_run p limit
  generalize p.run limit (some .trace) = report at hr
  cases hr with
  | halted => simp [hrecords, Event.isSummary, Except.isOk, Except.toBool]
  | faulted | spent => exact hrecords

/-! ## Events of the loop -/

/-- What a round reports: the summary, nothing at the limit, or else the instruction
    that it goes on to carry out. -/
def roundEvents (p : Program) (limit : StepLimit) (m : Machine) : List Event :=
  if m.isHalted p then [.halted p.size m.steps m.bank.registers]
  else match limit.filter (· ≤ m.steps) with
    | some _ => []
    | none => (m.nextEvent? p).toList

/-- What the loop reports in a number of rounds. -/
def loopEvents (p : Program) (limit : StepLimit) : Nat → List Event
  | 0 => []
  | n + 1 =>
    match p.loop limit n with
    | .running m => p.loopEvents limit n ++ p.roundEvents limit m
    | .ended _ | .overflowed => p.loopEvents limit n

theorem loopEvents_succ {m : Machine} (h : p.loop limit n = .running m) :
    p.loopEvents limit (n + 1) = p.loopEvents limit n ++ p.roundEvents limit m := by
  rw [loopEvents, h]

theorem roundEvents_of_lt {m : Machine} (hh : m.isHalted p = false)
    (hl : ∀ l ∈ limit, m.steps < l) : p.roundEvents limit m = (m.nextEvent? p).toList := by
  rw [roundEvents, filter_limit_eq_none_iff.2 hl]
  simp [hh]

/-- While the loop goes on, it has recorded a step in each round. -/
theorem loopEvents_of_running {m : Machine} (h : p.loop limit n = .running m) :
    p.loopEvents limit n = Machine.trace p n {} := by
  induction n generalizing m with
  | zero => rfl
  | succ n ih =>
    obtain ⟨hruns, hl, hc, -⟩ := loop_eq_running_iff.1 h
    have hr : Runs p n {} := hruns.mono n.le_succ
    obtain ⟨hh, hs⟩ := hruns n n.lt_succ_self
    have hbefore : p.loop limit n = .running (after p n {}) :=
      loop_eq_running_iff.2 ⟨hr, fun l hm => Nat.le_of_lt (hl l hm), Nat.le_of_lt hc, rfl⟩
    have hround : p.roundEvents limit (after p n {}) = ((after p n {}).nextEvent? p).toList :=
      roundEvents_of_lt hh (by rwa [hr.steps_fresh])
    rw [loopEvents_succ hbefore, ih hbefore, hround, hr.trace_add, trace_succ hh hs,
      Machine.trace, List.append_nil]

theorem run_of_ends {last : Machine × Stop} (h : Ends p (p.budget limit) {} last) :
    p.run limit (some .trace) = ⟨p.trace limit ++ p.summary last, p.result limit last⟩ := by
  have hfinish : p.finish limit = last := run_eq_iff.2 h
  rw [← hfinish]
  rfl

theorem le_budget_of_le (hl : ∀ l ∈ limit, n ≤ l) (hc : n ≤ maxCount) : n ≤ p.budget limit := by
  cases limit with
  | none => exact hc.trans (maxCount_lt_stateCount p).le
  | some l => exact hl l rfl

theorem lt_budget_of_lt (hl : ∀ l ∈ limit, n < l) (hc : n ≤ maxCount) : n < p.budget limit := by
  cases limit with
  | none => exact hc.trans_lt (maxCount_lt_stateCount p)
  | some l => exact hl l rfl

/-- The round that ends the loop adds what the run reports after its records. -/
theorem run_of_round {result : Except ExecutionError Registers} (hr : Runs p n {})
    (hl : ∀ l ∈ limit, n ≤ l) (hc : n ≤ maxCount)
    (h : p.round limit (after p n {}) = .ended result) :
    p.run limit (some .trace) =
      ⟨Machine.trace p n {} ++ p.roundEvents limit (after p n {}), result⟩ := by
  unfold round at h
  cases hh : (after p n {}).isHalted p with
  | true =>
    rw [hh] at h
    cases h
    have hn : n ≤ p.budget limit := le_budget_of_le hl hc
    rw [run_of_ends (.halted n hn hr hh), trace, hr.trace_of_isHalted hh hn, roundEvents, if_pos hh]
    rfl
  | false =>
    have hrunning : ¬ (after p n {}).isHalted p = true := by simp [hh]
    rw [if_neg hrunning, hr.steps_fresh] at h
    cases hlim : limit.filter (· ≤ n) with
    | some l =>
      obtain ⟨rfl, hle⟩ := Option.filter_eq_some_iff.1 hlim
      obtain rfl : n = l := le_antisymm (hl l rfl) (of_decide_eq_true hle)
      rw [hlim] at h
      cases h
      rw [run_of_ends (.spent hr hh), roundEvents, if_neg hrunning, hr.steps_fresh, hlim]
      rfl
    | none =>
      have hlt := filter_limit_eq_none_iff.1 hlim
      have hn : n < p.budget limit := lt_budget_of_lt hlt hc
      rw [hlim] at h
      cases hstep : (after p n {}).step? p with
      | none =>
        rw [hstep] at h
        cases h
      | some outcome =>
        obtain ⟨-, hs⟩ := step?_eq_some_iff.1 hstep
        obtain ⟨next, _ | fault⟩ := outcome
        · rw [hstep] at h
          cases h
        · rw [hstep] at h
          cases h
          have hf : ((after p n {}).step p).2 = some fault := congrArg Prod.snd hs
          rw [run_of_ends (.faulted n fault hn hr hh hf), trace, hr.trace_of_faulty hf hn,
            roundEvents_of_lt hh (by rwa [hr.steps_fresh])]
          exact congrArg (Report.mk · _) (List.append_nil _)

/-- **The loop has the events of the run**, and its result, once it ends. -/
theorem run_of_loop_ended {result : Except ExecutionError Registers}
    (h : p.loop limit n = .ended result) :
    p.run limit (some .trace) = ⟨p.loopEvents limit n, result⟩ := by
  induction n with
  | zero => cases h
  | succ n ih =>
    cases hloop : p.loop limit n with
    | overflowed =>
      rw [loop, hloop] at h
      cases h
    | ended earlier =>
      rw [loop, hloop] at h
      cases h
      rw [ih hloop, loopEvents, hloop]
    | running m =>
      rw [loopEvents_succ hloop, loopEvents_of_running hloop]
      obtain ⟨hr, hl, hc, rfl⟩ := loop_eq_running_iff.1 hloop
      rw [loop, hloop] at h
      exact run_of_round hr hl hc h

/-! ## The log of a run -/

/-- What the events of a run under a limit say about it. -/
structure FaithfulLog (p : Program) (limit : StepLimit) : Prop where
  /-- The trace lists the steps, from the first on. -/
  lists : p.ListsSteps (p.trace limit)
  length : (p.trace limit).length = (p.finish limit).1.steps
  /-- Nothing but the summary of a halted run comes after the trace. -/
  reports : p.Reports limit (p.trace limit) (p.run limit (some .trace))
  /-- There is one summary if there is a result, and none otherwise. -/
  summaries : (p.run limit (some .trace)).events.countP Event.isSummary =
    if (p.run limit (some .trace)).result.isOk then 1 else 0
  /-- A threshold changes what is shown, and nothing else. -/
  thresholds : ∀ threshold, (p.run limit threshold).result = p.execute limit ∧
    (p.run limit threshold).shown threshold = (p.run limit (some .trace)).shown threshold
  /-- The loop records one step a round while it goes on, with or without an end. -/
  running : ∀ n m, p.loop limit n = .running m →
    p.loopEvents limit n = p.trace (some n) ∧ (p.trace (some n)).length = n
  /-- The loop has the events and the result of the run once it ends. -/
  ended : ∀ n result, p.loop limit n = .ended result →
    p.run limit (some .trace) = ⟨p.loopEvents limit n, result⟩
  /-- A limit of 64 bits makes it end. -/
  limited : ∀ l ≤ maxCount, limit = some l →
    p.run limit (some .trace) = ⟨p.loopEvents limit (l + 1), p.execute limit⟩

/-- **The log of a run is faithful**, whatever the limit.  Each step that is counted
    is recorded, in order, with the place and the instruction of the state before it,
    and leads to the place of the next record.  A faulty jump is the last record, and
    a step that the limit forbids is none.  The summary of a halted run comes after
    the records, with their number and the registers of the result. -/
theorem faithfulLog (p : Program) (limit : StepLimit) : p.FaithfulLog limit where
  lists := listsSteps_trace p (p.budget limit)
  length := length_trace p limit
  reports := reports_run p limit
  summaries := countP_isSummary_run p limit
  thresholds threshold := ⟨rfl, shown_run p limit threshold⟩
  running n m h := by
    have hr : Runs p n {} := (loop_eq_running_iff.1 h).1
    exact ⟨loopEvents_of_running h, hr.length_trace⟩
  ended n result h := run_of_loop_ended h
  limited l hl := by
    rintro rfl
    exact run_of_loop_ended (loop_eq_ended p hl)

/-- The faulty jump is recorded if the limit allows the step, and no summary follows. -/
example :
    let p : Program := ⟨#[.data .inc .ax (.literal 1), .jump .always 7], []⟩
    (p.run (some 2) (some .trace)).events =
        [.executed 0 (.data .inc .ax (.literal 1)), .executed 1 (.jump .always 7)] ∧
      (p.run (some 1) (some .trace)).events = [.executed 0 (.data .inc .ax (.literal 1))] := by
  decide

end Program

end RegisterMachine
