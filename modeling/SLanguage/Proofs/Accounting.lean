import SLanguage.Proofs.Prediction
import SLanguage.Proofs.Transparency

/-!
# The accounts of a run

`Routine.stepFrom` steps as `Routine.stepWith` does, but prices the instruction with what earlier
steps of the run have learned of the cost of bodies; a body that is called learns for itself
(`Registry.recallTo`). Since memos with right values answer as an empty one does, the two steps
agree along every run (`stepFrom_eq`).

A `Trace` is a run seen from outside: calls of step after step from the start, and the reports that
they gave. The accounts of its last state follow from what one step does (`charged_of_stepWith`):
every step is charged the cost of its instruction, and none follows the one that halts.
-/

namespace SLanguage

namespace Routine

/-- One step, priced with what is known of bodies, and what is known after it. -/
def stepFrom (p : Routine) (r : Registry) (invoke : Invoke) (known : Memo Cycles) (s : State) :
    Step × Memo Cycles :=
  if s.halted then (.halted, known)
  else
    match p.code[s.pointer]? with
    | none => (.halted, known)
    | some i =>
      match (r.instructionCost ⟨p.scope, s.position⟩ i).run known with
      | .error e known => (.failed e s, known)
      | .ok cost known => (p.perform r invoke s i cost, known)

/-- The state in which a run ends that keeps what it learns of bodies. -/
def finishFrom (p : Routine) (r : Registry) (invoke : Invoke) :
    (bound : Nat) → Memo Cycles → State → Bounded State
  | 0, _, _ => .unfinished
  | bound + 1, known, s =>
    match p.stepFrom r invoke known s with
    | (.halted, _) => .done s
    | (.took _ next, known) => p.finishFrom r invoke bound known next
    | (.failed e _, _) => .failed e
    | (.unfinished, _) => .unfinished

end Routine

/-- Runs a function as `Registry.invokeTo` does, where every body keeps what it learns. -/
def Registry.recallTo (r : Registry) (bound : Nat) : (depth : Nat) → Invoke
  | 0, _, _ => .unfinished
  | depth + 1, f, values => do
    let p ← .ofExcept (Routine.ofFunction f)
    let s ← p.finishFrom r (r.recallTo bound depth) bound ∅ (p.start values)
    .done s.frame.result

variable {p : Routine} {r : Registry} {invoke : Invoke} {val : String → Cycles}

/-! ## Steps that remember -/

theorem Registry.mirrors_instructionCost (hval : r.Solves Cost.plainBody val) (site : Site)
    (i : Instruction) :
    Mirrors (r.BothHold val) (r.instructionCost site i) (r.instructionCost site i) :=
  Cost.mirrors_ofInstruction fun _ _ =>
    mirrors_analyse Cost.ofBody_follows Cost.ofBody_uniform hval (List.forall_mem_nil _) site

namespace Routine

/-- With right values in the memo the step is the one without, and they stay right. -/
theorem stepFrom_eq (hval : r.Solves Cost.plainBody val) {known : Memo Cycles}
    (hk : r.Holds val known) (invoke : Invoke) (s : State) :
    (p.stepFrom r invoke known s).1 = p.stepWith r invoke s ∧
      r.Holds val (p.stepFrom r invoke known s).2 := by
  unfold stepFrom stepWith
  by_cases hh : s.halted = true
  · rw [if_pos hh, if_pos hh]
    exact ⟨rfl, hk⟩
  rw [if_neg hh, if_neg hh]
  cases p.code[s.pointer]? with
  | none => exact ⟨rfl, hk⟩
  | some i =>
    have h := r.mirrors_instructionCost hval ⟨p.scope, s.position⟩ i known ∅
      ⟨hk, r.holds_empty val⟩
    simp only [MemoM.fresh]
    generalize (r.instructionCost _ i).run known = a at h
    generalize (r.instructionCost _ i).run ∅ = b at h
    cases h with
    | ok cost h => exact ⟨rfl, h.1⟩
    | error e h => exact ⟨rfl, h.1⟩

theorem of_stepFrom (hval : r.Solves Cost.plainBody val) {known known' : Memo Cycles}
    (hk : r.Holds val known) {s : State} {x : Step}
    (h : p.stepFrom r invoke known s = (x, known')) :
    p.stepWith r invoke s = x ∧ r.Holds val known' := by
  have hs := stepFrom_eq (p := p) hval hk invoke s
  rw [h] at hs
  exact ⟨hs.1.symm, hs.2⟩

theorem stepFrom_of_cost {known known' : Memo Cycles} {s : State} {i : Instruction} {cost : Cycles}
    (hh : s.halted = false) (hi : p.code[s.pointer]? = some i)
    (hc : (r.instructionCost ⟨p.scope, s.position⟩ i).run known = .ok cost known') :
    p.stepFrom r invoke known s = (p.perform r invoke s i cost, known') := by
  rw [stepFrom, hh, if_neg Bool.false_ne_true, hi]
  simp only [hc]

theorem stepFrom_of_no_cost {known known' : Memo Cycles} {s : State} {i : Instruction} {e : Fault}
    (hh : s.halted = false) (hi : p.code[s.pointer]? = some i)
    (hc : (r.instructionCost ⟨p.scope, s.position⟩ i).run known = .error e known') :
    p.stepFrom r invoke known s = (.failed e s, known') := by
  rw [stepFrom, hh, if_neg Bool.false_ne_true, hi]
  simp only [hc]

theorem finishFrom_eq (hval : r.Solves Cost.plainBody val) {known : Memo Cycles}
    (hk : r.Holds val known) (bound : Nat) (s : State) :
    p.finishFrom r invoke bound known s = p.finishWith r invoke bound s := by
  induction bound generalizing known s with
  | zero => rfl
  | succ bound ih =>
    obtain ⟨hs, hk'⟩ := stepFrom_eq hval hk invoke s
    rw [finishFrom, finishWith, ← hs]
    generalize p.stepFrom r invoke known s = x at hk'
    obtain ⟨step, known'⟩ := x
    cases step with
    | took report next => exact ih hk' next
    | _ => rfl

end Routine

theorem Registry.recallTo_eq (r : Registry) (bound depth : Nat) :
    r.recallTo bound depth = r.invokeTo bound depth := by
  obtain ⟨val, hval⟩ := r.exists_solves Cost.plainBody_local
  induction depth with
  | zero => rfl
  | succ depth ih =>
    funext f vs
    rw [recallTo, invokeTo, ih]
    simp only [Routine.finishFrom_eq hval (r.holds_empty val)]

/-! ## What one step does -/

/-- A report and the state before its step. -/
structure Entry where
  before : State
  report : Report

/-- Past the last instruction the run is over. -/
def Routine.Inside (p : Routine) (s : State) : Prop :=
  s.halted = true ∨ s.pointer < p.code.size

namespace Routine

theorem start_inside (inputs : List Value) : p.Inside (p.start inputs) := by
  unfold Inside start
  rcases Nat.eq_zero_or_pos p.code.size with h | h
  · exact .inl (by simpa using h)
  · exact .inr h

theorem moveTo_inside (s : State) (pointer : Nat) : p.Inside (p.moveTo s pointer) := by
  unfold Inside moveTo
  rcases Nat.lt_or_ge pointer p.code.size with h | h
  · exact .inr h
  · exact .inl (decide_eq_true h)

/-- A signal moves the pointer and may end the run; the rest of the state stays. -/
theorem follow_spec {s s' : State} {signal : Signal} (h : p.follow s signal = .ok s') :
    p.Inside s' ∧ s'.frame = s.frame ∧ s'.cycles = s.cycles ∧ s'.steps = s.steps := by
  cases signal with
  | next =>
    cases h
    exact ⟨moveTo_inside s _, rfl, rfl, rfl⟩
  | halt =>
    cases h
    exact ⟨.inl rfl, rfl, rfl, rfl⟩
  | jump l =>
    rw [follow] at h
    cases hl : p.labels.position? l with
    | some pointer =>
      rw [hl] at h
      cases h
      exact ⟨moveTo_inside s _, rfl, rfl, rfl⟩
    | none => rw [hl] at h; cases h

/-- What a step that gives a report did to the accounts. -/
structure Charged (p : Routine) (r : Registry) (s : State) (report : Report) (s' : State) :
    Prop where
  running : s.halted = false
  position : report.position = s.position
  price : ∃ i, p.code[s.pointer]? = some i ∧
    (r.instructionCost ⟨p.scope, s.position⟩ i).fresh = .ok report.cycles
  cycles : s'.cycles = Word.add s.cycles report.cycles
  steps : s'.steps = s.steps + 1
  halted : report.halted = s'.halted
  inside : p.Inside s'

theorem charged_of_stepWith {s s' : State} {report : Report}
    (h : p.stepWith r invoke s = .took report s') : p.Charged r s report s' := by
  obtain ⟨i, cost, frame, signal, hh, hi, hcost, -, hf, rfl⟩ := stepWith_took_cases h
  obtain ⟨hin, -, hc, hs⟩ := follow_spec hf
  exact ⟨hh, rfl, ⟨i, hi, hcost⟩, hc, hs, rfl, hin⟩

/-- A step of a run that is not over gives a report, fails or goes on. -/
theorem halted_of_stepWith {s : State} (hin : p.Inside s) (h : p.stepWith r invoke s = .halted) :
    s.halted = true := by
  rcases stepWith_halted_cases h with hh | ⟨-, hi⟩
  · exact hh
  · exact hin.resolve_right (Nat.not_lt.mpr (Array.getElem?_eq_none_iff.mp hi))

end Routine

/-! ## Runs -/

/-- Calls of one step after the other from the start, each of which gave a report or nothing: what
is known of bodies by then, the state, and the reports. -/
inductive Routine.Trace (p : Routine) (r : Registry) (inputs : List Value) :
    Memo Cycles → State → List Entry → Prop where
  | start : Trace p r inputs ∅ (p.start inputs) []
  | took {known known' : Memo Cycles} {s s' : State} {log : List Entry} {report : Report}
      (bound depth : Nat) (h : Trace p r inputs known s log)
      (hs : p.stepFrom r (r.recallTo bound depth) known s = (.took report s', known')) :
      Trace p r inputs known' s' (log ++ [⟨s, report⟩])
  | idled {known known' : Memo Cycles} {s : State} {log : List Entry} (bound depth : Nat)
      (h : Trace p r inputs known s log)
      (hs : p.stepFrom r (r.recallTo bound depth) known s = (.halted, known')) :
      Trace p r inputs known' s log

/-- The exact sum of the cycles reported. -/
def totalCycles (log : List Entry) : Nat :=
  log.foldl (fun total e => total + e.report.cycles.toNat) 0

theorem totalCycles_concat (log : List Entry) (e : Entry) :
    totalCycles (log ++ [e]) = totalCycles log + e.report.cycles.toNat := by
  rw [totalCycles, List.foldl_append]
  rfl

/-- The accounts of a state after these reports. -/
structure Routine.Accounted (p : Routine) (r : Registry) (s : State) (log : List Entry) :
    Prop where
  inside : s.halted = true ∨ s.pointer < p.code.size
  cycles : s.cycles.toNat = min 18446744073709551615 (totalCycles log)
  steps : s.steps = log.length
  /-- A report names the place of its step, and the cost of the instruction there. -/
  reports : ∀ e ∈ log, e.report.position = e.before.position ∧
    ∃ i, p.code[e.report.position - 1]? = some i ∧
      (r.instructionCost ⟨p.scope, e.report.position⟩ i).fresh = .ok e.report.cycles
  /-- The last report says whether the run is over by now, and the others that it was not. -/
  halts : ∀ k e, log[k]? = some e →
    (e.report.halted = true ↔ k + 1 = log.length ∧ s.halted = true)

namespace Routine

theorem accounted_start (r : Registry) (inputs : List Value) :
    p.Accounted r (p.start inputs) [] where
  inside := start_inside inputs
  cycles := rfl
  steps := rfl
  reports := List.forall_mem_nil _
  halts k e hk := by simp at hk

theorem Accounted.took {s s' : State} {log : List Entry} {report : Report}
    (h : p.Accounted r s log) (hc : p.Charged r s report s') :
    p.Accounted r s' (log ++ [⟨s, report⟩]) where
  inside := hc.inside
  cycles := by
    rw [totalCycles_concat, hc.cycles, Word.toNat_add, h.cycles, Word.toNat_top]
    dsimp only
    omega
  steps := by rw [hc.steps, h.steps, List.length_append, List.length_singleton]
  reports := by
    refine List.forall_mem_append.mpr ⟨h.reports, List.forall_mem_singleton.mpr ?_⟩
    refine ⟨hc.position, ?_⟩
    rw [hc.position]
    exact hc.price
  halts k e hk := by
    have hlen : (log ++ [(⟨s, report⟩ : Entry)]).length = log.length + 1 := List.length_append
    have hlt := (List.getElem?_eq_some_iff.mp hk).1
    rw [hlen] at hlt ⊢
    rcases Nat.lt_succ_iff_lt_or_eq.mp hlt with hlt | rfl
    · -- no earlier report says that the run is over, since this step was taken
      rw [List.getElem?_append_left hlt] at hk
      have hnot : ¬ e.report.halted = true := by
        rw [h.halts k e hk, hc.running]
        exact fun h => Bool.false_ne_true h.2
      exact iff_of_false hnot fun h => by omega
    · rw [List.getElem?_concat_length] at hk
      cases hk
      rw [hc.halted]
      exact (and_iff_right rfl).symm

theorem Trace.accounted (hval : r.Solves Cost.plainBody val) {inputs : List Value}
    {known : Memo Cycles} {s : State} {log : List Entry} (h : p.Trace r inputs known s log) :
    p.Accounted r s log ∧ r.Holds val known := by
  induction h with
  | start => exact ⟨accounted_start r inputs, r.holds_empty val⟩
  | took _ _ _ hs ih =>
    obtain ⟨he, hk⟩ := of_stepFrom hval ih.2 hs
    exact ⟨ih.1.took (charged_of_stepWith he), hk⟩
  | idled _ _ _ hs ih =>
    exact ⟨ih.1, (of_stepFrom hval ih.2 hs).2⟩

/-- The accounts are right after every number of steps; a step gives nothing exactly when the run is
over, and then changes nothing. The step that remembers is the step of the machine. -/
theorem execution_accounted {inputs : List Value} {known : Memo Cycles} {s : State}
    {log : List Entry} (h : p.Trace r inputs known s log) :
    p.Accounted r s log ∧ ∀ bound depth,
      (p.stepFrom r (r.recallTo bound depth) known s).1 =
        p.stepWith r (r.invokeTo bound depth) s ∧
      ((p.stepFrom r (r.recallTo bound depth) known s).1 = .halted ↔ s.halted = true) ∧
      (s.halted = true → p.stepFrom r (r.recallTo bound depth) known s = (.halted, known)) := by
  obtain ⟨val, hval⟩ := r.exists_solves Cost.plainBody_local
  obtain ⟨ha, hk⟩ := h.accounted hval
  refine ⟨ha, fun bound depth => ?_⟩
  have he := (stepFrom_eq (p := p) hval hk (r.recallTo bound depth) s).1
  have hover : s.halted = true →
      p.stepFrom r (r.recallTo bound depth) known s = (.halted, known) := fun hh => if_pos hh
  refine ⟨by rw [he, r.recallTo_eq], ⟨fun hs => ?_, fun hh => by rw [hover hh]⟩, hover⟩
  exact halted_of_stepWith ha.inside (he.symm.trans hs)

def callsF : Instruction := ⟨.empty, .quote .result ⟨"F", []⟩⟩

/-- Calls `F` twice and leaves. -/
def callsTwice : Routine where
  code := #[callsF, callsF, ⟨.empty, .jumpNotZero .result .exit⟩]
  labels := {}
  scope := .program

def counting : Registry := .ofList [{ name := "F", body := [⟨.empty, .increase .result⟩] }]

/-- What is known after the first call. -/
def learned : Memo Cycles := Std.TreeMap.insert ∅ "F" 1

/-- The second call need not look at the body. -/
theorem cost_callsF (site : Site) :
    (counting.instructionCost site callsF).run ∅ = .ok 6 learned ∧
    (counting.instructionCost site callsF).run learned = .ok 6 learned := by
  simp only [Registry.instructionCost, Cost.ofInstruction, callsF, Instruction.call?,
    Command.call?, Cost.ofCall, Registry.bodyCost]
  rw [Registry.analyse]
  exact ⟨rfl, rfl⟩

/-- A state after the first call, with 1 in the result. -/
def afterCall (pointer steps : Nat) (cycles : Cycles) (halted : Bool) : State where
  frame := (callsTwice.start []).frame.set .result 1
  pointer := pointer
  cycles := cycles
  steps := steps
  halted := halted

def callsTwiceLog : List Entry :=
  [⟨callsTwice.start [], ⟨1, .next, 6, false⟩⟩,
   ⟨afterCall 1 1 6 false, ⟨2, .next, 6, false⟩⟩,
   ⟨afterCall 2 2 12 false, ⟨3, .halt, 2, true⟩⟩]

/-- Two calls, the jump to the exit, and a step after the end. -/
theorem trace_callsTwice :
    callsTwice.Trace counting [] learned (afterCall 2 3 14 true) callsTwiceLog := by
  have h1 : callsTwice.Trace counting [] learned (afterCall 1 1 6 false) (callsTwiceLog.take 1) :=
    .took 2 1 .start ((stepFrom_of_cost rfl rfl (cost_callsF _).1).trans rfl)
  have h2 : callsTwice.Trace counting [] learned (afterCall 2 2 12 false) (callsTwiceLog.take 2) :=
    .took 2 1 h1 ((stepFrom_of_cost rfl rfl (cost_callsF _).2).trans rfl)
  have h3 : callsTwice.Trace counting [] learned (afterCall 2 3 14 true) callsTwiceLog :=
    .took 2 1 h2 rfl
  exact .idled 2 1 h3 rfl

theorem callsTwice_accounted :
    callsTwice.Trace counting [] learned (afterCall 2 3 14 true) callsTwiceLog ∧
    callsTwice.Accounted counting (afterCall 2 3 14 true) callsTwiceLog :=
  ⟨trace_callsTwice, (execution_accounted trace_callsTwice).1⟩

end Routine

end SLanguage
