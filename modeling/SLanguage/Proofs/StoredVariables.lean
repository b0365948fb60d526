import SLanguage.Proofs.Effects
import SLanguage.Proofs.FailedSteps
import SLanguage.Proofs.Occurrence

/-!
# What the frame of a run stores

A step leaves the frame alone or sets the one variable that its instruction may change
(`Writes`), whatever bodies it calls: these have frames of their own. So the variables stored stay
those of the start (`stores_start`), and a variable that no instruction may change keeps its value
(`Session.get_of_not_written`).
-/

namespace SLanguage

/-! ## Stored variables -/

namespace Frame

variable {f : Frame} {v w : Variable}

/-- The frame has an entry for the variable. -/
def Stores (f : Frame) (v : Variable) : Prop := v ∈ f.values

theorem stores_insert {x : Value} : Stores ⟨f.values.insert v x⟩ w ↔ w = v ∨ f.Stores w := by
  simp only [Stores, Std.TreeMap.mem_insert, Std.LawfulEqOrd.compare_eq_iff_eq, eq_comm (a := v)]

theorem stores_insertIfNew {x : Value} :
    Stores ⟨f.values.insertIfNew v x⟩ w ↔ w = v ∨ f.Stores w := by
  simp only [Stores, Std.TreeMap.mem_insertIfNew, Std.LawfulEqOrd.compare_eq_iff_eq,
    eq_comm (a := v)]

theorem stores_set {x : Value} :
    (f.set v x).Stores w ↔ f.Stores w ∨ w = v ∧ v.isConstant = false := by
  unfold set
  split
  · next hv => simp [hv]
  · next hv => rw [stores_insert, or_comm]; simp [hv]

theorem stores_declare {vs : List Variable} :
    (f.declare vs).Stores w ↔ f.Stores w ∨ w ∈ vs ∧ w.isConstant = false := by
  unfold declare
  induction vs generalizing f with
  | nil => simp
  | cons v rest ih =>
    rw [List.foldl_cons, ih, List.mem_cons, or_and_right]
    split
    · next hv =>
      have hne : ¬ (w = v ∧ w.isConstant = false) := by
        rintro ⟨rfl, hw⟩
        rw [hv] at hw
        cases hw
      rw [or_iff_right hne]
    · next hv =>
      have hiff : w = v ↔ w = v ∧ w.isConstant = false :=
        ⟨fun e => ⟨e, by simpa [e] using hv⟩, And.left⟩
      rw [stores_insertIfNew, ← hiff, or_assoc, or_left_comm]

theorem stores_ofInputs {inputs : List Value} :
    (ofInputs inputs).Stores v ↔ ∃ k, k < inputs.length ∧ v = .ofInputIndex k := by
  -- the inputs from a place on, added to what is stored already
  have fold : ∀ (xs : List Value) (place : Nat) (m : Std.TreeMap Variable Value),
      Stores ⟨(xs.zipIdx place).foldl (fun m x => m.insert (.ofInputIndex x.2) x.1) m⟩ v ↔
        Stores ⟨m⟩ v ∨ ∃ k, k < xs.length ∧ v = .ofInputIndex (place + k) := by
    intro xs
    induction xs with
    | nil => simp
    | cons x rest ih =>
      intro place m
      rw [List.zipIdx_cons, List.foldl_cons, ih, stores_insert (f := ⟨m⟩), or_comm (a := v = _),
        or_assoc]
      refine or_congr_right ?_
      constructor
      · rintro (rfl | ⟨k, hk, rfl⟩)
        · exact ⟨0, Nat.succ_pos _, rfl⟩
        · exact ⟨k + 1, Nat.succ_lt_succ hk, by rw [Nat.add_assoc, Nat.add_comm 1]⟩
      · rintro ⟨k, hk, rfl⟩
        cases k with
        | zero => exact .inl rfl
        | succ k =>
          exact .inr ⟨k, Nat.lt_of_succ_lt_succ hk, by rw [Nat.add_assoc, Nat.add_comm 1]⟩
  have h := fold inputs 0 ∅
  simp only [Nat.zero_add] at h
  refine h.trans (or_iff_right ?_)
  simp [Stores]

theorem mem_map_toList : v ∈ f.toList.map (·.1) ↔ f.Stores v := by
  rw [toList, Std.TreeMap.map_fst_toList_eq_keys, Std.TreeMap.mem_keys]
  rfl

/-- The listing of a frame is in the order of variables, each once. -/
theorem pairwise_map_toList (f : Frame) :
    (f.toList.map (·.1)).Pairwise fun v w => v.rank < w.rank := by
  rw [toList, Std.TreeMap.map_fst_toList_eq_keys]
  refine List.Pairwise.imp ?_ (Std.TreeMap.ordered_keys (t := f.values))
  exact fun h => Nat.compare_eq_lt.mp h

end Frame

/-! ## One step -/

namespace Routine

variable {p : Routine} {r : Registry} {val : String → Cycles} {inputs : List Value}
  {known : Memo Cycles} {s s' : State} {log : List Entry} {failures : List Failure}
  {code : List Instruction} {scope : Scope} {v : Variable}

/-- The frame is left alone, or an instruction of the sequence sets the variable that it may change.
-/
def Writes (code : List Instruction) (f f' : Frame) : Prop :=
  f' = f ∨ ∃ i ∈ code, ∃ v x, i.command.written? = some v ∧ f' = f.set v x

theorem writes_of_took (hp : ofCode code scope = .ok p) {invoke : Invoke} {report : Report}
    (h : p.stepWith r invoke s = .took report s') : Writes code s.frame s'.frame := by
  obtain ⟨i, cost, frame, signal, -, hi, -, hx, hf, -⟩ := stepWith_took_cases h
  rw [(ofCode_ok hp).1, List.getElem?_toArray] at hi
  obtain ⟨-, hframe, -⟩ := follow_spec hf
  rw [hframe]
  rcases Command.execute_done hx with hkept | ⟨v, x, hv, hset, -⟩
  · exact .inl hkept
  · exact .inr ⟨i, List.mem_of_getElem? hi, v, x, hv, hset⟩

theorem frame_of_failed (hp : ofCode code scope = .ok p) {bound depth : Nat} {e : Fault}
    (h : p.stepWith r (r.invokeTo bound depth) s = .failed e s') : s'.frame = s.frame := by
  obtain ⟨charge, -, rfl⟩ := cause_of_stepWith hp h
  exact s.frame_charge charge

/-! ## Sessions -/

/-- What the writes of the sequence keep holds of the frame in every state that steps can reach. -/
theorem Session.frame_induction (hp : ofCode code scope = .ok p)
    (h : p.Session r inputs known s log failures) {P : Frame → Prop}
    (hstart : P (p.start inputs).frame) (hwrites : ∀ f f', Writes code f f' → P f → P f') :
    P s.frame := by
  induction h with
  | start => exact hstart
  | took _ _ h hs ih => exact hwrites _ _ (writes_of_took hp (h.stepWith_eq hs)) ih
  | idled _ _ _ _ ih => exact ih
  | failed _ _ h hs ih =>
    rw [frame_of_failed hp (h.stepWith_eq hs)]
    exact ih

/-- At the start the frame stores the result, the inputs, and what the sequence mentions. -/
theorem stores_start (hp : ofCode code scope = .ok p) :
    (p.start inputs).frame.Stores v ↔ v = .result ∨
      (∃ k, k < inputs.length ∧ v = .ofInputIndex k) ∨
      v.isConstant = false ∧ ∃ i ∈ code, i.Mentions v := by
  rw [start, (ofCode_ok hp).1, Frame.stores_declare, Frame.stores_ofInputs, List.mem_cons,
    List.mem_flatMap]
  simp only [Instruction.mem_vars_iff]
  constructor
  · rintro (hk | ⟨rfl | hi, hv⟩)
    · exact .inr (.inl hk)
    · exact .inl rfl
    · exact .inr (.inr ⟨hv, hi⟩)
  · rintro (rfl | hk | ⟨hv, hi⟩)
    · exact .inr ⟨.inl rfl, rfl⟩
    · exact .inl hk
    · exact .inr ⟨.inr hi, hv⟩

theorem Session.stores_iff (hp : ofCode code scope = .ok p)
    (h : p.Session r inputs known s log failures) :
    s.frame.Stores v ↔ (p.start inputs).frame.Stores v := by
  refine h.frame_induction hp (P := fun f => f.Stores v ↔ (p.start inputs).frame.Stores v) .rfl ?_
  rintro f f' (rfl | ⟨i, hi, w, x, hw, rfl⟩) ih
  · exact ih
  -- what is written is mentioned, so it is stored already
  have hmentions : i.Mentions w :=
    .inl (Instruction.mem_operands_iff.mp (Command.written?_mem_operands hw))
  rw [Frame.stores_set, ih]
  refine or_iff_left_of_imp ?_
  rintro ⟨rfl, hc⟩
  exact (stores_start hp).mpr (.inr (.inr ⟨hc, i, hi, hmentions⟩))

theorem Session.get_of_not_written (hp : ofCode code scope = .ok p)
    (h : p.Session r inputs known s log failures) (hv : ∀ i ∈ code, i.command.written? ≠ some v) :
    s.frame.get v = (p.start inputs).frame.get v := by
  refine h.frame_induction hp (P := fun f => f.get v = (p.start inputs).frame.get v) rfl ?_
  rintro f f' (rfl | ⟨i, hi, w, x, hw, rfl⟩) ih
  · exact ih
  cases hc : w.isConstant with
  | true => rw [Frame.set_constant _ hc, ih]
  | false =>
    have hne : v ≠ w := by
      rintro rfl
      exact hv i hi hw
    rw [Frame.get_set _ hc, if_neg hne, ih]

/-- In every state that steps can reach, the variables listed are the result, the inputs and those
that the sequence mentions, in order, whatever bodies were called; and a variable that no
instruction of the sequence may change has the value that it had at the start. -/
theorem state_lists_own_variables (hp : ofCode code scope = .ok p)
    (h : p.Session r inputs known s log failures) :
    (s.outcome.vars.map (·.1)).Pairwise (fun v w => v.rank < w.rank) ∧
    (∀ v, v ∈ s.outcome.vars.map (·.1) ↔ v = .result ∨
      (∃ k, k < inputs.length ∧ v = .ofInputIndex k) ∨
      v.isConstant = false ∧ ∃ i ∈ code, i.Mentions v) ∧
    ∀ v, (∀ i ∈ code, i.command.written? ≠ some v) →
      s.frame.get v = (p.start inputs).frame.get v := by
  refine ⟨s.frame.pairwise_map_toList, fun v => ?_, fun v hv => h.get_of_not_written hp hv⟩
  exact Frame.mem_map_toList.trans ((h.stores_iff hp).trans (stores_start hp))

/-- Asks a function that works with a variable of its own. -/
def asksF : Instruction :=
  ⟨.empty, .quote (.work 1) ⟨"F", [.leaf (.input 2), .leaf (.constant 3)]⟩⟩

def asks : Routine where
  code := #[asksF]
  labels := {}
  scope := .program

def working : Registry :=
  .ofList [{ name := "F", body := [⟨.empty, .increase (.work 7)⟩,
    ⟨.empty, .assign .result (.work 7)⟩] }]

theorem cost_asksF (site : Site) :
    (working.instructionCost site asksF).run ∅ = .ok 10 (Std.TreeMap.insert ∅ "F" 5) := by
  simp only [Registry.instructionCost, Cost.ofInstruction, asksF, Instruction.call?,
    Command.call?, Cost.ofCall, Registry.bodyCost]
  rw [Registry.analyse]
  rfl

/-- The state after the call, which answers 1. -/
def answered : State where
  frame := (asks.start [5]).frame.set (.work 1) 1
  pointer := 1
  cycles := 10
  steps := 1
  halted := true

theorem session_asks :
    asks.Session working [5] (Std.TreeMap.insert ∅ "F" 5) answered
      [⟨asks.start [5], ⟨1, .next, 10, true⟩⟩] [] :=
  .took 3 1 .start ((stepFrom_of_cost rfl rfl (cost_asksF _)).trans rfl)

/-- The variable of the function is not listed, and the input that nothing changes keeps its value.
-/
theorem asks_lists_own_variables :
    ofCode [asksF] .program = .ok asks ∧
    asks.Session working [5] (Std.TreeMap.insert ∅ "F" 5) answered
      [⟨asks.start [5], ⟨1, .next, 10, true⟩⟩] [] ∧
    answered.outcome.vars.map (·.1) = [.result, .input 1, .input 2, .work 1] ∧
    answered.frame.get (.input 1) = (asks.start [5]).frame.get (.input 1) := by
  have hp : ofCode [asksF] .program = .ok asks := rfl
  have hkept := (state_lists_own_variables hp session_asks).2.2
  exact ⟨hp, session_asks, rfl, hkept (.input 1) (by decide)⟩

end Routine

end SLanguage
