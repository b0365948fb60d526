import Mathlib.Data.List.ReduceOption
import SLanguage.Proofs.Accounting
import SLanguage.Proofs.Adequacy

/-!
# Steps that fail

A step fails for one of three causes (`Routine.Cause`): its instruction has no cost, its call fails,
or it jumps to a label that stands nowhere. Only the jump has been executed by then, so it alone is
charged and counted. A failed step has one cause and leaves the charge of it (`cause_of_stepWith`),
and a state with a cause does not step otherwise (`Cause.stepWith`, `Cause.unique`).

A `Session` is a run seen from outside in which steps may fail and the caller goes on stepping: the
reports so far, and the failures. Its accounts are those of its reports and of the charges that the
causes of its failures leave (`Session.balanced`).
-/

namespace SLanguage

/-- A fault, with the states before and after the step that gave it. -/
structure Failure where
  before : State
  fault : Fault
  next : State

namespace State

/-- Charged and counted, unless there is no charge. -/
def charge (s : State) : Option Cycles → State
  | none => s
  | some cost => { s with cycles := Word.add s.cycles cost, steps := s.steps + 1 }

theorem charge_none (s : State) : s.charge none = s := rfl

theorem charge_some (s : State) (cost : Cycles) : s.charge (some cost) =
    { s with cycles := Word.add s.cycles cost, steps := s.steps + 1 } := rfl

theorem frame_charge (s : State) (charge : Option Cycles) :
    (s.charge charge).frame = s.frame := by
  cases charge with
  | none => rw [charge_none]
  | some cost => rw [charge_some]

/-- The instruction that the next step is about. -/
def Faces (code : List Instruction) (s : State) (i : Instruction) : Prop :=
  s.halted = false ∧ code[s.pointer]? = some i

end State

namespace Routine

variable {p : Routine} {r : Registry} {val : String → Cycles} {inputs : List Value}
  {known : Memo Cycles} {s s' : State} {log : List Entry} {failures : List Failure}
  {code : List Instruction} {scope : Scope} {e : Fault} {charge : Option Cycles}

/-- Why the step from a state fails, with its fault and the charge that it leaves. -/
inductive Cause (r : Registry) (code : List Instruction) (scope : Scope) (s : State) :
    Fault → Option Cycles → Prop where
  | cost {i : Instruction} {e : Fault} (hi : s.Faces code i)
      (hc : (r.instructionCost ⟨scope, s.position⟩ i).fresh = .error e) :
      Cause r code scope s e none
  | call {i : Instruction} {cost : Cycles} {c : Call} {e : Fault} {bound depth : Nat}
      (hi : s.Faces code i) (hc : (r.instructionCost ⟨scope, s.position⟩ i).fresh = .ok cost)
      (hcall : i.call? = some c)
      (hv : c.value r (r.invokeTo bound depth) ⟨scope, s.position⟩ s.frame = .failed e) :
      Cause r code scope s e none
  /-- The instruction executes to a jump, and its label stands nowhere. -/
  | jump {i : Instruction} {cost : Cycles} {l : Label} (hi : s.Faces code i)
      (hc : (r.instructionCost ⟨scope, s.position⟩ i).fresh = .ok cost)
      (hx : i.command.Executes r s.frame s.frame (.jump l)) (hl : l ∉ attached code) :
      Cause r code scope s (.unresolvedLabel l ⟨scope, s.position⟩) (some cost)

/-! ## One step -/

/-- A step that fails has a cause, and leaves the state with the charge of that cause. -/
theorem cause_of_stepWith (hp : ofCode code scope = .ok p) {bound depth : Nat}
    (h : p.stepWith r (r.invokeTo bound depth) s = .failed e s') :
    ∃ charge, Cause r code scope s e charge ∧ s' = s.charge charge := by
  obtain ⟨hcode, rfl, hlabels⟩ := ofCode_ok hp
  obtain ⟨i, hh, hi, hcause⟩ := stepWith_failed_cases h
  rw [hcode, List.getElem?_toArray] at hi
  rcases hcause with ⟨hc, rfl⟩ | ⟨cost, hc, ⟨hx, rfl⟩ | ⟨frame, l, hx, hl, rfl, rfl⟩⟩
  · exact ⟨none, .cost ⟨hh, hi⟩ hc, rfl⟩
  · obtain ⟨c, hcall, hv⟩ := Command.execute_failed hx
    exact ⟨none, .call ⟨hh, hi⟩ hc hcall hv, rfl⟩
  · -- a command that jumps has written nothing
    obtain rfl : frame = s.frame := by
      rcases Command.execute_done hx with hframe | ⟨_, _, _, _, hnext⟩
      · exact hframe
      · cases hnext
    have hnowhere := (LabelTable.position?_ofCode_eq_none hlabels).mp hl
    exact ⟨some cost, .jump ⟨hh, hi⟩ hc (Command.executes_of_execute hx) hnowhere, rfl⟩

/-- What has a cause fails, and leaves the charge: with every bound and depth large enough for the
calls that it makes. -/
theorem Cause.stepWith (hp : ofCode code scope = .ok p) (h : Cause r code scope s e charge) :
    ∃ least, ∀ bound, least ≤ bound → ∀ depth, least ≤ depth →
      p.stepWith r (r.invokeTo bound depth) s = .failed e (s.charge charge) := by
  obtain ⟨hcode, rfl, hlabels⟩ := ofCode_ok hp
  have hget {i : Instruction} (hi : s.Faces code i) : p.code[s.pointer]? = some i := by
    rw [hcode, List.getElem?_toArray]
    exact hi.2
  cases h with
  | cost hi hc =>
    refine ⟨0, fun bound _ depth _ => ?_⟩
    rw [stepWith_of_no_cost hi.1 (hget hi) hc, State.charge_none]
  | @call i cost c _ m d hi hc hcall hv =>
    refine ⟨max m d, fun bound hb depth hd => ?_⟩
    have hle : Invoke.LeOn r (· ∈ c.toArgument.names) (r.invokeTo m d) (r.invokeTo bound depth) :=
      fun n _ f hf vs => Registry.invokeTo_le (by omega) (by omega)
        (by rwa [Registry.name_of_get? hf]) vs
    have hv' := (Argument.value_le ⟨p.scope, s.position⟩ s.frame _ hle).failed hv
    rw [stepWith_of_cost hi.1 (hget hi) hc, perform, Command.execute_of_call_failed hcall hv',
      State.charge_none]
  | jump hi hc hx hl =>
    obtain ⟨m, d, hx⟩ := hx.exists_bound ⟨p.scope, s.position⟩
    have hpos := (LabelTable.position?_ofCode_eq_none hlabels).mpr hl
    refine ⟨max m d, fun bound hb depth hd => ?_⟩
    rw [stepWith_of_cost hi.1 (hget hi) hc, perform, hx bound (by omega) depth (by omega),
      State.charge_some]
    simp only [follow, hpos, State.position]

/-- The cause of a failure decides its fault and its charge. -/
theorem Cause.unique (hp : ofCode code scope = .ok p) {e' : Fault} {charge' : Option Cycles}
    (h : Cause r code scope s e charge) (h' : Cause r code scope s e' charge') :
    e = e' ∧ charge = charge' := by
  obtain ⟨least, hs⟩ := h.stepWith hp
  obtain ⟨least', hs'⟩ := h'.stepWith hp
  have hboth := (hs _ (Nat.le_max_left least least') _ (Nat.le_max_left least least')).symm.trans
    (hs' _ (Nat.le_max_right least least') _ (Nat.le_max_right least least'))
  obtain ⟨he, hstate⟩ := Step.failed.inj hboth
  have hsteps := congrArg State.steps hstate
  refine ⟨he, ?_⟩
  cases h with
  | cost _ _ | call _ _ _ _ =>
    cases h' with
    | cost _ _ | call _ _ _ _ => rfl
    | jump _ _ _ _ =>
      rw [State.charge_none, State.charge_some] at hsteps
      exact absurd hsteps.symm (Nat.succ_ne_self _)
  | jump hi hc _ _ =>
    cases h' with
    | cost _ _ | call _ _ _ _ =>
      rw [State.charge_none, State.charge_some] at hsteps
      exact absurd hsteps (Nat.succ_ne_self _)
    | jump hi' hc' _ _ =>
      cases hi.2.symm.trans hi'.2
      rw [hc] at hc'
      exact congrArg some (Except.ok.inj hc')

/-! ## Sessions -/

/-- Calls of one step after the other from the start, whatever they gave: what is known of bodies by
then, the state, the reports and the failures. -/
inductive Session (p : Routine) (r : Registry) (inputs : List Value) :
    Memo Cycles → State → List Entry → List Failure → Prop where
  | start : Session p r inputs ∅ (p.start inputs) [] []
  | took {known known' : Memo Cycles} {s s' : State} {log : List Entry} {failures : List Failure}
      {report : Report} (bound depth : Nat) (h : Session p r inputs known s log failures)
      (hs : p.stepFrom r (r.recallTo bound depth) known s = (.took report s', known')) :
      Session p r inputs known' s' (log ++ [⟨s, report⟩]) failures
  | idled {known known' : Memo Cycles} {s : State} {log : List Entry} {failures : List Failure}
      (bound depth : Nat) (h : Session p r inputs known s log failures)
      (hs : p.stepFrom r (r.recallTo bound depth) known s = (.halted, known')) :
      Session p r inputs known' s log failures
  | failed {known known' : Memo Cycles} {s s' : State} {log : List Entry}
      {failures : List Failure} {e : Fault} (bound depth : Nat)
      (h : Session p r inputs known s log failures)
      (hs : p.stepFrom r (r.recallTo bound depth) known s = (.failed e s', known')) :
      Session p r inputs known' s' log (failures ++ [⟨s, e, s'⟩])

/-- What is known of bodies stays right, whatever the steps gave. -/
theorem Session.holds (hval : r.Solves Cost.plainBody val)
    (h : p.Session r inputs known s log failures) : r.Holds val known := by
  induction h with
  | start => exact r.holds_empty val
  | took _ _ _ hs ih | idled _ _ _ hs ih | failed _ _ _ hs ih => exact (of_stepFrom hval ih hs).2

/-- The steps of a session are those of the machine. -/
theorem Session.stepFrom_eq (h : p.Session r inputs known s log failures) (bound depth : Nat) :
    (p.stepFrom r (r.recallTo bound depth) known s).1 =
      p.stepWith r (r.invokeTo bound depth) s := by
  obtain ⟨val, hval⟩ := r.exists_solves Cost.plainBody_local
  rw [r.recallTo_eq]
  exact (Routine.stepFrom_eq hval (h.holds hval) _ s).1

theorem Session.stepWith_eq (h : p.Session r inputs known s log failures) {bound depth : Nat}
    {x : Step} {known' : Memo Cycles}
    (hs : p.stepFrom r (r.recallTo bound depth) known s = (x, known')) :
    p.stepWith r (r.invokeTo bound depth) s = x := by
  rw [← h.stepFrom_eq, hs]

/-- The exact sum of charges. -/
def totalCharges (charges : List Cycles) : Nat :=
  charges.foldl (fun total c => total + c.toNat) 0

/-- The failure has a cause that leaves this charge, and left it. -/
def Explains (r : Registry) (code : List Instruction) (scope : Scope) (x : Failure)
    (charge : Option Cycles) : Prop :=
  Cause r code scope x.before x.fault charge ∧ x.next = x.before.charge charge

/-- The accounts of a state after these reports and failures: each report counts, and each failure
whose cause leaves a charge. -/
def Balanced (r : Registry) (code : List Instruction) (scope : Scope) (s : State)
    (log : List Entry) (failures : List Failure) : Prop :=
  ∃ charges, List.Forall₂ (Explains r code scope) failures charges ∧
    s.steps = log.length + charges.reduceOption.length ∧
    s.cycles.toNat = min 18446744073709551615
      (totalCycles log + totalCharges charges.reduceOption)

theorem Balanced.took (h : Balanced r code scope s log failures) {report : Report}
    (hc : p.Charged r s report s') : Balanced r code scope s' (log ++ [⟨s, report⟩]) failures := by
  obtain ⟨charges, hcauses, hsteps, hcycles⟩ := h
  refine ⟨charges, hcauses, ?_, ?_⟩
  · rw [hc.steps, hsteps, List.length_append, List.length_singleton]
    omega
  · rw [totalCycles_concat, hc.cycles, Word.toNat_add, hcycles, Word.toNat_top]
    dsimp only
    omega

theorem Balanced.failed (h : Balanced r code scope s log failures)
    (hx : Cause r code scope s e charge) :
    Balanced r code scope (s.charge charge) log (failures ++ [⟨s, e, s.charge charge⟩]) := by
  obtain ⟨charges, hcauses, hsteps, hcycles⟩ := h
  refine ⟨charges ++ [charge], List.rel_append hcauses (.cons ⟨hx, rfl⟩ .nil), ?_⟩
  rw [List.reduceOption_append]
  cases charge with
  | none =>
    rw [List.reduceOption_singleton, Option.toList_none, List.append_nil]
    exact ⟨hsteps, hcycles⟩
  | some cost =>
    have htotal : totalCharges (charges.reduceOption ++ [cost]) =
        totalCharges charges.reduceOption + cost.toNat := by
      rw [totalCharges, List.foldl_append]
      rfl
    rw [List.reduceOption_singleton, Option.toList_some, htotal, List.length_append]
    refine ⟨congrArg (· + 1) hsteps, ?_⟩
    rw [State.charge, Word.toNat_add, hcycles, Word.toNat_top]
    omega

theorem Session.balanced (hp : ofCode code scope = .ok p)
    (h : p.Session r inputs known s log failures) : Balanced r code scope s log failures := by
  induction h with
  | start => exact ⟨[], .nil, rfl, by rw [List.reduceOption_nil]; rfl⟩
  | took _ _ h hs ih => exact ih.took (charged_of_stepWith (h.stepWith_eq hs))
  | idled _ _ _ _ ih => exact ih
  | failed _ _ h hs ih =>
    obtain ⟨charge, hx, rfl⟩ := cause_of_stepWith hp (h.stepWith_eq hs)
    exact ih.failed hx

/-- In every state that steps can reach, failed ones included: a step that fails has one cause. It
leaves the state as it was if that is a missing cost or a call that fails, and charged and counted,
but the same otherwise, if it is a jump of the sequence itself to a label that stands nowhere. What
has such a cause does fail so. And the reports, with the charges that the causes of the failures
left, account for the cycles and the steps. -/
theorem failed_step_keeps_run (hp : ofCode code scope = .ok p)
    (h : p.Session r inputs known s log failures) :
    (∀ bound depth e s' known',
      p.stepFrom r (r.recallTo bound depth) known s = (.failed e s', known') →
        ∃ charge, Cause r code scope s e charge ∧ s' = s.charge charge ∧
          ∀ e' charge', Cause r code scope s e' charge' → e' = e ∧ charge' = charge) ∧
    (∀ e charge, Cause r code scope s e charge →
      ∃ least, ∀ bound, least ≤ bound → ∀ depth, least ≤ depth →
        (p.stepFrom r (r.recallTo bound depth) known s).1 = .failed e (s.charge charge)) ∧
    Balanced r code scope s log failures := by
  refine ⟨fun bound depth e s' known' hs => ?_, fun e charge hx => ?_, h.balanced hp⟩
  · obtain ⟨charge, hx, hs'⟩ := cause_of_stepWith hp (h.stepWith_eq hs)
    exact ⟨charge, hx, hs', fun e' charge' hx' => hx'.unique hp hx⟩
  · simp only [h.stepFrom_eq]
    exact hx.stepWith hp

/-- Counts, and then goes on with an instruction that fails. -/
def countsThen (i : Instruction) : Routine where
  code := #[⟨.empty, .increase .result⟩, i]
  labels := {}
  scope := .program

/-- The state after the count. -/
def counted (i : Instruction) : State where
  frame := ((countsThen i).start []).frame.set .result 1
  pointer := 1
  cycles := 1
  steps := 1
  halted := false

def countedLog (i : Instruction) : List Entry := [⟨(countsThen i).start [], ⟨1, .next, 1, false⟩⟩]

theorem cost_callsF_missing (site : Site) :
    (Registry.empty.instructionCost site callsF).run ∅ = .error (.unknownFunction "F" site) ∅ := by
  simp only [Registry.instructionCost, Cost.ofInstruction, callsF, Instruction.call?,
    Command.call?, Cost.ofCall, Registry.bodyCost]
  rw [Registry.analyse]
  rfl

/-- The call fails for want of a cost. -/
def missedCall : Failure := ⟨counted callsF, .unknownFunction "F" ⟨.program, 2⟩, counted callsF⟩

/-- One count, and two tries at the call. -/
theorem session_missedCall : (countsThen callsF).Session .empty [] ∅ (counted callsF)
    (countedLog callsF) [missedCall, missedCall] := by
  have hcount : (countsThen callsF).Session .empty [] ∅ (counted callsF) (countedLog callsF) [] :=
    .took 0 0 .start rfl
  have hfails : (countsThen callsF).stepFrom .empty (Registry.empty.recallTo 0 0) ∅
      (counted callsF) = (.failed missedCall.fault (counted callsF), ∅) :=
    stepFrom_of_no_cost rfl rfl (cost_callsF_missing _)
  exact .failed 0 0 (.failed 0 0 hcount hfails) hfails

/-- Jumps to a label that stands nowhere. -/
def gotoNowhere : Instruction := ⟨.empty, .goto (.named "A")⟩

/-- The jump fails after it was charged. -/
def strayedFrom (s : State) : Failure :=
  ⟨s, .unresolvedLabel (.named "A") ⟨.program, 2⟩, s.charge (some 1)⟩

/-- The state after two tries at the jump. -/
def strayedTwice : State := ((counted gotoNowhere).charge (some 1)).charge (some 1)

def strayedFailures : List Failure :=
  [strayedFrom (counted gotoNowhere), strayedFrom ((counted gotoNowhere).charge (some 1))]

/-- One count, and two tries at the jump. -/
theorem session_strayed : (countsThen gotoNowhere).Session .empty [] ∅ strayedTwice
    (countedLog gotoNowhere) strayedFailures := by
  have hcount : (countsThen gotoNowhere).Session .empty [] ∅ (counted gotoNowhere)
      (countedLog gotoNowhere) [] := .took 0 0 .start rfl
  exact .failed 0 0 (.failed 0 0 hcount rfl) rfl

/-- A call without a cost is not charged, however often it is tried; a jump that leads nowhere is
charged each time, and would be once more. -/
theorem countsThen_keeps_run :
    (ofCode (countsThen callsF).code.toList .program = .ok (countsThen callsF) ∧
      (countsThen callsF).Session .empty [] ∅ (counted callsF) (countedLog callsF)
        [missedCall, missedCall] ∧
      Balanced .empty (countsThen callsF).code.toList .program (counted callsF)
        (countedLog callsF) [missedCall, missedCall]) ∧
    ofCode (countsThen gotoNowhere).code.toList .program = .ok (countsThen gotoNowhere) ∧
    (countsThen gotoNowhere).Session .empty [] ∅ strayedTwice (countedLog gotoNowhere)
      strayedFailures ∧
    Balanced .empty (countsThen gotoNowhere).code.toList .program strayedTwice
      (countedLog gotoNowhere) strayedFailures ∧
    strayedTwice.steps = 3 ∧ strayedTwice.cycles = 3 ∧
    ∃ least, ∀ bound, least ≤ bound → ∀ depth, least ≤ depth →
      ((countsThen gotoNowhere).stepFrom .empty (Registry.empty.recallTo bound depth) ∅
        strayedTwice).1 =
          .failed (.unresolvedLabel (.named "A") ⟨.program, 2⟩) (strayedTwice.charge (some 1)) := by
  have hp : ofCode (countsThen gotoNowhere).code.toList .program =
      .ok (countsThen gotoNowhere) := rfl
  obtain ⟨-, hfails, hbalanced⟩ := failed_step_keeps_run hp session_strayed
  refine ⟨⟨rfl, session_missedCall, (failed_step_keeps_run rfl session_missedCall).2.2⟩,
    hp, session_strayed, hbalanced, rfl, rfl, hfails _ _ ?_⟩
  exact .jump (i := gotoNowhere) ⟨rfl, rfl⟩ rfl (.plain rfl rfl) (by decide)

/-- Jumps to a label that stands nowhere. -/
def strays : Routine where
  code := #[gotoNowhere]
  labels := {}
  scope := .program

/-- The first step of a run fails, and yet it is charged and counted. -/
theorem failed_jump_charged :
    ofCode strays.code.toList .program = .ok strays ∧
    strays.Session .empty [] ∅ (strays.start []) [] [] ∧
    ∃ s', strays.stepFrom .empty (Registry.empty.recallTo 0 0) ∅ (strays.start []) =
        (.failed (.unresolvedLabel (.named "A") ⟨.program, 1⟩) s', ∅) ∧
      s'.cycles ≠ (strays.start []).cycles ∧ s'.steps ≠ (strays.start []).steps :=
  ⟨rfl, .start, _, rfl, by decide, by decide⟩

end Routine

end SLanguage
