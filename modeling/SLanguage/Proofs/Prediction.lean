import SLanguage.Proofs.Cost
import SLanguage.Proofs.LabelTable

/-!
# The check predicts the faults of a run

A direct run can fail in four ways: its labels or its writes are refused before the first step, an
instruction has no cost, a call fails on the way down, or a jump goes nowhere. Each leaves its mark
in the list of issues (`Program.Predicts`). One step is traced back to its cause in
`stepWith_failed_cases`; the faults of a callee are those of its own steps, so the rest is an
induction on the depth of calls and on the number of steps.
-/

namespace SLanguage

open Relation

/-- A sequence of the program, in its scope. -/
inductive Program.Sequence (p : Program) : Scope → List Instruction → Prop where
  | main : p.Sequence .program p.instructions
  | body {f : Function} (hf : p.functions.get? f.name = some f) : p.Sequence f.scope f.body

/-- The fault itself stands among the issues, or, where the check words it differently, an issue of
the same cause. No other fault is predicted. -/
def Program.Predicts (p : Program) : Fault → Prop
  | .duplicateLabel l scope first second => .duplicateLabel l scope first second ∈ p.issues
  | .unresolvedLabel l site => .unresolvedLabel l site ∈ p.issues
  | .invalidOperand v site => .invalidOperand v site ∈ p.issues
  | .unknownFunction name site =>
    .unknownFunction name site ∈ p.issues ∨
      .malformedArgument (.unknownFunction name) site ∈ p.issues
  | .recursiveFunction _ => ∃ chain, .recursiveFunction chain ∈ p.issues
  | .malformedArgument _ _ | .namesExhausted _ | .unsupportedOperation _ _ _ => False

theorem Command.written?_mem_operands {c : Command} {v : Variable} (h : c.written? = some v) :
    v ∈ c.operands := by
  cases c <;> simp_all [written?, operands, subject?]

/-! ## Issues of a sequence -/

namespace Check

variable {r : Registry} {scope : Scope} {code : List Instruction}

theorem mem_sequenceIssues {k : Nat} {i : Instruction} {e : Fault} (hi : code[k]? = some i)
    (he : e ∈ instructionIssues r (attached code) ⟨scope, k + 1⟩ i) :
    e ∈ sequenceIssues r scope code := by
  refine List.mem_append.mpr (.inr (List.mem_flatMap.mpr ⟨(i, k + 1), ?_, he⟩))
  rw [Nat.add_comm]
  exact List.mk_add_mem_zipIdx_iff_getElem?.mpr hi

theorem eq_of_mem_duplicateLabels {seen : List (Label × Nat)} {xs : List (Instruction × Nat)}
    {e : Fault} (h : e ∈ duplicateLabels scope seen xs) :
    ∃ l first second, e = .duplicateLabel l scope first second := by
  induction xs generalizing seen with
  | nil => cases h
  | cons x rest ih =>
    obtain ⟨i, position⟩ := x
    rw [duplicateLabels] at h
    split at h
    · split at h
      · rcases List.mem_cons.mp h with rfl | h
        · exact ⟨_, _, _, rfl⟩
        · exact ih h
      · exact ih h
    · exact ih h

theorem unresolvedLabel_mem {k : Nat} {i : Instruction} {l : Label} (hi : code[k]? = some i)
    (ht : i.target? = some l) (hx : l ≠ .exit) (hl : l ∉ attached code) :
    .unresolvedLabel l ⟨scope, k + 1⟩ ∈ sequenceIssues r scope code := by
  refine mem_sequenceIssues hi (List.mem_append.mpr (.inl (List.mem_append.mpr (.inl ?_))))
  simp [targetIssues, ht, hx, hl]

theorem invalidOperand_mem {k : Nat} {i : Instruction} {v : Variable} (hi : code[k]? = some i)
    (ho : v ∈ i.command.operands) (hv : v.isConstant = true) :
    .invalidOperand v ⟨scope, k + 1⟩ ∈ sequenceIssues r scope code := by
  refine mem_sequenceIssues hi (List.mem_append.mpr (.inl (List.mem_append.mpr (.inr ?_))))
  exact List.mem_map.mpr ⟨v, List.mem_filter.mpr ⟨ho, by simp [hv]⟩, rfl⟩

/-- An unknown name in the arguments is reported, unless a call on its left already was. -/
theorem unknown_mem_listIssues {site : Site} {n : String} (hn : r.contains n = false)
    {as : List Argument}
    (h : ∀ a ∈ as, n ∈ a.names.tail →
      .malformedArgument (.unknownFunction n) site ∈ argumentIssues r site a)
    {reported : List String} (hr : n ∉ reported) (hm : n ∈ Argument.listNames as) :
    .malformedArgument (.unknownFunction n) site ∈ listIssues r site reported as := by
  induction as generalizing reported with
  | nil => cases hm
  | cons a rest ih =>
    have ih := @ih fun b hb => h b (by simp [hb])
    rw [listIssues]
    rcases List.mem_append.mp hm with hm | hm
    · cases a with
      | leaf v => cases hm
      | call name arguments =>
        rcases List.mem_cons.mp hm with rfl | hm
        · simp [unknownCallee?, hn, hr]
        · have := h (.call name arguments) (by simp) hm
          split <;> simp [this]
    · split
      · next name hu =>
        by_cases e : name = n
        · simp [e]
        · have := @ih (name :: reported) (by simp [hr, Ne.symm e]) hm
          simp [this]
      · have := ih hr hm
        simp [this]

theorem unknown_mem_argumentIssues {site : Site} {n : String} (hn : r.contains n = false)
    (a : Argument) (hm : n ∈ a.names.tail) :
    .malformedArgument (.unknownFunction n) site ∈ argumentIssues r site a := by
  induction a with
  | leaf v => cases hm
  | call name arguments ih => exact unknown_mem_listIssues hn ih (by simp) hm

theorem unknown_mem {site : Site} {n : String} (h : CalledAt scope code site n)
    (hn : r.get? n = none) :
    .unknownFunction n site ∈ sequenceIssues r scope code ∨
      .malformedArgument (.unknownFunction n) site ∈ sequenceIssues r scope code := by
  obtain ⟨k, i, hi, rfl, hm⟩ := h
  have hn : r.contains n = false := by rw [Registry.contains, hn]; rfl
  cases hc : i.call? with
  | none => simp [Instruction.callNames, hc] at hm
  | some c =>
    have hcall {e : Fault} (he : e ∈ callIssues r ⟨scope, k + 1⟩ i) :
        e ∈ sequenceIssues r scope code :=
      mem_sequenceIssues hi (List.mem_append.mpr (.inr he))
    rw [Instruction.callNames, hc] at hm
    have hm : n ∈ c.name :: Argument.listNames c.arguments := hm
    rcases List.mem_cons.mp hm with rfl | hm
    · exact .inl (hcall (by simp [callIssues, hc, hn]))
    · refine .inr (hcall ?_)
      rw [callIssues, hc]
      exact List.mem_append.mpr (.inr (unknown_mem_listIssues hn
        (fun a _ => unknown_mem_argumentIssues hn a) (by simp) hm))

end Check

namespace Program

variable {p : Program} {scope : Scope} {code : List Instruction}

theorem Sequence.issues_subset (h : p.Sequence scope code) {e : Fault}
    (he : e ∈ Check.sequenceIssues p.functions scope code) : e ∈ p.issues := by
  refine List.mem_append.mpr (.inl ?_)
  cases h with
  | main => exact List.mem_append.mpr (.inl he)
  | body hf =>
    exact List.mem_append.mpr (.inr (List.mem_flatMap.mpr
      ⟨_, Registry.mem_functions_iff.mpr hf, he⟩))

theorem predicts_unknown (h : p.Sequence scope code) {site : Site} {n : String}
    (hc : CalledAt scope code site n) (hn : p.functions.get? n = none) :
    p.Predicts (.unknownFunction n site) :=
  (Check.unknown_mem hc hn).imp h.issues_subset h.issues_subset

theorem predicts_recursion {n : String} (hn : TransGen p.functions.Calls n n) :
    ∃ chain, .recursiveFunction chain ∈ p.issues := by
  cases hr : p.functions.findRecursion with
  | some chain =>
    exact ⟨chain, List.mem_append.mpr (.inr (by simp [Check.recursionIssues, hr]))⟩
  | none => exact absurd hn (Registry.not_recursive_of_findRecursion hr n)

/-- What an instruction without a cost fails with is predicted. -/
theorem predicts_of_blames (h : p.Sequence scope code) {site : Site} {n : String}
    (hc : CalledAt scope code site n) {e : Fault} (he : p.functions.Blames site n e) :
    p.Predicts e := by
  cases he with
  | unknown _ hn hs =>
    rcases hs with ⟨rfl, rfl⟩ | ⟨f, hf, hs⟩
    · exact predicts_unknown h hc hn
    · exact predicts_unknown (.body hf) hs hn
  | recursion _ hn => exact predicts_recursion hn

theorem predicts_of_ofCode (h : p.Sequence scope code) {e : Fault}
    (he : Routine.ofCode code scope = .error e) : p.Predicts e := by
  unfold Routine.ofCode at he
  cases ht : LabelTable.ofCode code scope with
  | error e' =>
    rw [ht] at he; cases he
    have hm := LabelTable.ofCode_error_mem ht
    obtain ⟨l, first, second, rfl⟩ := Check.eq_of_mem_duplicateLabels hm
    exact h.issues_subset (List.mem_append.mpr (.inl hm))
  | ok t =>
    simp only [ht, bind, Except.bind] at he
    split at he
    · next e' hf =>
      cases he
      obtain ⟨⟨i, position⟩, hx, hf⟩ := List.exists_of_findSome?_eq_some hf
      obtain ⟨hle, hi⟩ := List.mk_mem_zipIdx_iff_le_and_getElem?_sub.mp hx
      cases hw : i.command.written? with
      | none => simp [hw] at hf
      | some v =>
        simp [hw, Variable.isWritable] at hf
        obtain ⟨hv, rfl⟩ := hf
        have hm : .invalidOperand v ⟨scope, position - 1 + 1⟩ ∈
            Check.sequenceIssues p.functions scope code :=
          Check.invalidOperand_mem hi (Command.written?_mem_operands hw) hv
        rw [Nat.sub_add_cancel hle] at hm
        exact h.issues_subset hm
    · cases he

end Program

/-! ## One step -/

theorem Argument.value_failed {r : Registry} {invoke : Invoke} {site : Site} {frame : Frame}
    {e : Fault} (a : Argument) (h : a.value r invoke site frame = .failed e) :
    (∃ n ∈ a.names, r.get? n = none ∧ e = .unknownFunction n site) ∨
      ∃ f vs, r.get? f.name = some f ∧ invoke f vs = .failed e := by
  have list : ∀ as : List Argument, (∀ a ∈ as, a.value r invoke site frame = .failed e →
      (∃ n ∈ a.names, r.get? n = none ∧ e = .unknownFunction n site) ∨
        ∃ f vs, r.get? f.name = some f ∧ invoke f vs = .failed e) →
      listValues r invoke site frame as = .failed e →
      (∃ n ∈ listNames as, r.get? n = none ∧ e = .unknownFunction n site) ∨
        ∃ f vs, r.get? f.name = some f ∧ invoke f vs = .failed e := by
    intro as ha h
    induction as with
    | nil => cases h
    | cons a rest ih =>
      rw [listValues] at h
      cases hv : a.value r invoke site frame with
      | failed e' =>
        rw [hv] at h; cases h
        refine (ha a (by simp) hv).imp_left ?_
        rintro ⟨n, hn, h⟩
        exact ⟨n, List.mem_append.mpr (.inl hn), h⟩
      | unfinished => rw [hv] at h; cases h
      | done v =>
        rw [hv] at h
        cases hvs : listValues r invoke site frame rest with
        | failed e' =>
          rw [hvs] at h; cases h
          refine (ih (fun b hb => ha b (by simp [hb])) hvs).imp_left ?_
          rintro ⟨n, hn, h⟩
          exact ⟨n, List.mem_append.mpr (.inr hn), h⟩
        | unfinished => rw [hvs] at h; cases h
        | done vs => rw [hvs] at h; cases h
  induction a with
  | leaf v => cases h
  | call name arguments ih =>
    rw [value] at h
    cases hvs : listValues r invoke site frame arguments with
    | failed e' =>
      rw [hvs] at h; cases h
      refine (list arguments ih hvs).imp_left ?_
      rintro ⟨n, hn, h⟩
      exact ⟨n, List.mem_cons_of_mem _ hn, h⟩
    | unfinished => rw [hvs] at h; cases h
    | done vs =>
      rw [hvs] at h
      cases hf : r.get? name with
      | none =>
        simp [Registry.lookup, hf, Bounded.ofExcept] at h
        exact .inl ⟨name, by simp [names], hf, h.symm⟩
      | some f =>
        simp [Registry.lookup, hf, Bounded.ofExcept] at h
        exact .inr ⟨f, vs, by rw [Registry.name_of_get? hf]; exact hf, h⟩

namespace Command

variable {evaluate : Call → Bounded Value} {f f' : Frame} {c : Command}

theorem execute_failed {e : Fault} (h : c.execute evaluate f = .failed e) :
    ∃ call, c.call? = some call ∧ evaluate call = .failed e := by
  cases c <;> simp only [execute, reduceCtorEq] at h
  case quote v call =>
    cases hv : evaluate call <;> rw [hv] at h <;> cases h
    exact ⟨call, rfl, hv⟩
  case jumpEqualCall v call l =>
    cases hv : evaluate call <;> rw [hv] at h <;> cases h
    exact ⟨call, rfl, hv⟩

theorem execute_of_call_failed {call : Call} {e : Fault} (hc : c.call? = some call)
    (h : evaluate call = .failed e) : c.execute evaluate f = .failed e := by
  cases c <;> cases hc <;> rw [execute, h, Bounded.failed_bind]

theorem goto_eq_jump {l l' : Label} (h : Signal.goto l = .jump l') : l = l' ∧ l' ≠ .exit := by
  cases l <;> simp [Signal.goto] at h <;> simp [← h]

theorem gotoIf_eq_jump {b : Bool} {l l' : Label} (h : Signal.gotoIf b l = .jump l') :
    l = l' ∧ l' ≠ .exit := by
  cases b
  · cases h
  · exact goto_eq_jump h

theorem gotoIf_eq_halt {b : Bool} {l : Label} (h : Signal.gotoIf b l = .halt) : l = .exit := by
  cases b
  · cases h
  · cases l <;> first | rfl | cases h

/-- A command ends the run only if its target is the exit. -/
theorem execute_halt (h : c.execute evaluate f = .done (f', .halt)) : c.target? = some .exit := by
  cases c <;> simp only [execute, Bounded.done.injEq, Prod.mk.injEq, reduceCtorEq, and_false] at h
  case jumpNotZero v t => rw [← gotoIf_eq_halt h.2]; rfl
  case goto t => rw [← gotoIf_eq_halt (b := true) h.2]; rfl
  case jumpZero v t => rw [← gotoIf_eq_halt h.2]; rfl
  case jumpEqualConstant v k t => rw [← gotoIf_eq_halt h.2]; rfl
  case jumpEqualVariable v w t => rw [← gotoIf_eq_halt h.2]; rfl
  case quote v call =>
    cases hv : evaluate call <;> simp [hv] at h
  case jumpEqualCall v call t =>
    cases hv : evaluate call with
    | done value =>
      simp only [hv, Bounded.done_bind, Bounded.done.injEq, Prod.mk.injEq] at h
      rw [← gotoIf_eq_halt h.2]; rfl
    | failed e => rw [hv] at h; cases h
    | unfinished => rw [hv] at h; cases h

/-- A command jumps only to its target, and never to the exit. -/
theorem execute_jump {l : Label} (h : c.execute evaluate f = .done (f', .jump l)) :
    c.target? = some l ∧ l ≠ .exit := by
  cases c <;> simp only [execute, Bounded.done.injEq, Prod.mk.injEq, reduceCtorEq, and_false] at h
  case jumpNotZero v t => obtain ⟨rfl, hx⟩ := gotoIf_eq_jump h.2; exact ⟨rfl, hx⟩
  case goto t => obtain ⟨rfl, hx⟩ := goto_eq_jump h.2; exact ⟨rfl, hx⟩
  case jumpZero v t => obtain ⟨rfl, hx⟩ := gotoIf_eq_jump h.2; exact ⟨rfl, hx⟩
  case jumpEqualConstant v k t => obtain ⟨rfl, hx⟩ := gotoIf_eq_jump h.2; exact ⟨rfl, hx⟩
  case jumpEqualVariable v w t => obtain ⟨rfl, hx⟩ := gotoIf_eq_jump h.2; exact ⟨rfl, hx⟩
  case quote v call =>
    cases hv : evaluate call <;> simp [hv] at h
  case jumpEqualCall v call t =>
    cases hv : evaluate call with
    | done value =>
      simp only [hv, Bounded.done_bind, Bounded.done.injEq, Prod.mk.injEq] at h
      obtain ⟨rfl, hx⟩ := gotoIf_eq_jump h.2
      exact ⟨rfl, hx⟩
    | failed e => rw [hv] at h; cases h
    | unfinished => rw [hv] at h; cases h

/-- All that a command does to the frame: it sets the variable that it may change and goes on, or it
leaves the frame alone. -/
theorem execute_done {signal : Signal} (h : c.execute evaluate f = .done (f', signal)) :
    f' = f ∨ ∃ v x, c.written? = some v ∧ f' = f.set v x ∧ signal = .next := by
  cases c with
  | increase v => cases h; exact .inr ⟨v, _, rfl, rfl, rfl⟩
  | decrease v => cases h; exact .inr ⟨v, _, rfl, rfl, rfl⟩
  | zero v => cases h; exact .inr ⟨v, _, rfl, rfl, rfl⟩
  | assignConstant v k => cases h; exact .inr ⟨v, _, rfl, rfl, rfl⟩
  | assign v w => cases h; exact .inr ⟨v, _, rfl, rfl, rfl⟩
  | quote v call =>
    rw [execute] at h
    cases hv : evaluate call <;> rw [hv] at h <;> cases h
    exact .inr ⟨v, _, rfl, rfl, rfl⟩
  | jumpEqualCall v call l =>
    rw [execute] at h
    cases hv : evaluate call <;> rw [hv] at h <;> cases h
    exact .inl rfl
  | _ => cases h; exact .inl rfl

end Command

namespace Routine

variable {r : Registry} {invoke : Invoke}

theorem follow_error {p : Routine} {s : State} {signal : Signal} {e : Fault}
    (h : p.follow s signal = .error e) :
    ∃ l, signal = .jump l ∧ p.labels.position? l = none ∧
      e = .unresolvedLabel l ⟨p.scope, s.position⟩ := by
  cases signal with
  | next => cases h
  | halt => cases h
  | jump l =>
    rw [follow] at h
    split at h
    · cases h
    · next hp => cases h; exact ⟨l, rfl, hp, rfl⟩

/-- Why a step fails, and the state that it leaves: no cost, a call that fails, or a jump to
nowhere. -/
theorem stepWith_failed_cases {p : Routine} {s s' : State} {e : Fault}
    (h : p.stepWith r invoke s = .failed e s') :
    ∃ i, s.halted = false ∧ p.code[s.pointer]? = some i ∧
      ((r.instructionCost ⟨p.scope, s.position⟩ i).fresh = .error e ∧ s' = s ∨
       ∃ cost, (r.instructionCost ⟨p.scope, s.position⟩ i).fresh = .ok cost ∧
        (i.command.execute (Call.value r invoke ⟨p.scope, s.position⟩ s.frame) s.frame =
            .failed e ∧ s' = s ∨
         ∃ frame l,
          i.command.execute (Call.value r invoke ⟨p.scope, s.position⟩ s.frame) s.frame =
            .done (frame, .jump l) ∧
          p.labels.position? l = none ∧ e = .unresolvedLabel l ⟨p.scope, s.position⟩ ∧
          s' = { s with frame, cycles := Word.add s.cycles cost, steps := s.steps + 1 })) := by
  unfold stepWith at h
  split at h
  · cases h
  next hh =>
  split at h
  · cases h
  next i hi =>
  refine ⟨i, by simpa using hh, hi, ?_⟩
  split at h
  · next e' hc => cases h; exact .inl ⟨hc, rfl⟩
  next cost hc =>
  refine .inr ⟨cost, hc, ?_⟩
  unfold perform at h
  split at h
  · next e' hx => cases h; exact .inl ⟨hx, rfl⟩
  · cases h
  next frame signal hx =>
  dsimp only at h
  split at h
  · next e' hf =>
    cases h
    obtain ⟨l, rfl, hp, rfl⟩ := follow_error hf
    exact .inr ⟨frame, l, hx, hp, rfl, rfl⟩
  · cases h

/-- What a step that gives a report did. -/
theorem stepWith_took_cases {p : Routine} {s s' : State} {report : Report}
    (h : p.stepWith r invoke s = .took report s') :
    ∃ i cost frame signal, s.halted = false ∧ p.code[s.pointer]? = some i ∧
      (r.instructionCost ⟨p.scope, s.position⟩ i).fresh = .ok cost ∧
      i.command.execute (Call.value r invoke ⟨p.scope, s.position⟩ s.frame) s.frame =
        .done (frame, signal) ∧
      p.follow { s with frame, cycles := Word.add s.cycles cost, steps := s.steps + 1 } signal =
        .ok s' ∧
      report = ⟨s.position, signal, cost, s'.halted⟩ := by
  unfold stepWith at h
  split at h
  · cases h
  next hh =>
  split at h
  · cases h
  next i hi =>
  split at h
  · cases h
  next cost hc =>
  unfold perform at h
  split at h
  · cases h
  · cases h
  next frame signal hx =>
  dsimp only at h
  split at h
  · cases h
  next next hf =>
  cases h
  exact ⟨i, cost, frame, signal, by simpa using hh, hi, hc, hx, hf, rfl⟩

section
variable {p : Routine} {s : State} {i : Instruction} (hh : s.halted = false)
  (hi : p.code[s.pointer]? = some i)
include hh hi

theorem stepWith_of_cost {cost : Cycles}
    (hc : (r.instructionCost ⟨p.scope, s.position⟩ i).fresh = .ok cost) :
    p.stepWith r invoke s = p.perform r invoke s i cost := by
  rw [stepWith, hh, if_neg Bool.false_ne_true]
  simp only [hi, hc]

theorem stepWith_of_no_cost {e : Fault}
    (hc : (r.instructionCost ⟨p.scope, s.position⟩ i).fresh = .error e) :
    p.stepWith r invoke s = .failed e s := by
  rw [stepWith, hh, if_neg Bool.false_ne_true]
  simp only [hi, hc]

end

/-- An instruction is executed, or it fails, or its call goes on. -/
theorem perform_ne_halted (p : Routine) (s : State) (i : Instruction) (cost : Cycles) :
    p.perform r invoke s i cost ≠ .halted := by
  unfold perform
  split
  · exact Step.noConfusion
  · exact Step.noConfusion
  dsimp only
  split <;> exact Step.noConfusion

/-- A step that does nothing finds the run over, or no instruction. -/
theorem stepWith_halted_cases {p : Routine} {s : State} (h : p.stepWith r invoke s = .halted) :
    s.halted = true ∨ s.halted = false ∧ p.code[s.pointer]? = none := by
  unfold stepWith at h
  split at h
  · next hh => exact .inl hh
  next hh =>
  split at h
  · next hi => exact .inr ⟨by simpa using hh, hi⟩
  split at h
  · cases h
  · exact absurd h (perform_ne_halted _ _ _ _)

/-- What a routine is made of. -/
theorem ofCode_ok {code : List Instruction} {scope : Scope} {p : Routine}
    (h : ofCode code scope = .ok p) :
    p.code = code.toArray ∧ p.scope = scope ∧ LabelTable.ofCode code scope = .ok p.labels := by
  unfold ofCode at h
  cases ht : LabelTable.ofCode code scope with
  | error e => rw [ht] at h; cases h
  | ok t =>
    simp only [ht, bind, Except.bind] at h
    split at h
    · cases h
    · cases h; exact ⟨rfl, rfl, rfl⟩

end Routine

/-! ## Whole runs -/

namespace Program

variable {p : Program} {scope : Scope} {code : List Instruction} {routine : Routine}
  {invoke : Invoke}

/-- Every fault of `invoke` on a registered function is predicted. -/
def Foresees (p : Program) (invoke : Invoke) : Prop :=
  ∀ f vs e, p.functions.get? f.name = some f → invoke f vs = .failed e → p.Predicts e

theorem predicts_of_stepWith (h : p.Sequence scope code)
    (hr : Routine.ofCode code scope = .ok routine) (hinv : p.Foresees invoke) {s s' : State}
    {e : Fault} (hs : routine.stepWith p.functions invoke s = .failed e s') : p.Predicts e := by
  obtain ⟨hcode, rfl, hl⟩ := Routine.ofCode_ok hr
  obtain ⟨i, -, hi, hcause⟩ := Routine.stepWith_failed_cases hs
  rw [hcode, List.getElem?_toArray] at hi
  rcases hcause with ⟨hc, -⟩ | ⟨-, -, ⟨hx, -⟩ | ⟨f, l, hx, hp, rfl, -⟩⟩
  · rcases p.functions.instructionCost_fresh ⟨routine.scope, s.position⟩ i with
      ⟨c, hc', -⟩ | ⟨e', hc', n, hn, hb⟩
    · rw [hc] at hc'; cases hc'
    · rw [hc] at hc'; cases hc'
      exact predicts_of_blames h ⟨s.pointer, i, hi, rfl, hn⟩ hb
  · obtain ⟨call, hcall, hv⟩ := Command.execute_failed hx
    rcases Argument.value_failed _ hv with ⟨n, hn, hg, rfl⟩ | ⟨f, vs, hf, hv⟩
    · refine predicts_unknown h ⟨s.pointer, i, hi, rfl, ?_⟩ hg
      rw [Instruction.callNames, Instruction.call?, hcall]
      exact hn
    · exact hinv f vs e hf hv
  · obtain ⟨ht, hne⟩ := Command.execute_jump hx
    exact h.issues_subset (Check.unresolvedLabel_mem hi ht hne
      ((LabelTable.position?_ofCode_eq_none hl).mp hp))

theorem predicts_of_finishWith (h : p.Sequence scope code)
    (hr : Routine.ofCode code scope = .ok routine) (hinv : p.Foresees invoke) {bound : Nat}
    {s : State} {e : Fault} (hs : routine.finishWith p.functions invoke bound s = .failed e) :
    p.Predicts e := by
  induction bound generalizing s with
  | zero => cases hs
  | succ bound ih =>
    rw [Routine.finishWith] at hs
    split at hs
    · cases hs
    · exact ih hs
    · next hstep => cases hs; exact predicts_of_stepWith h hr hinv hstep
    · cases hs

theorem foresees_invokeTo (p : Program) (bound depth : Nat) :
    p.Foresees (p.functions.invokeTo bound depth) := by
  induction depth with
  | zero => intro f vs e _ h; cases h
  | succ depth ih =>
    intro f vs e hf h
    rw [Registry.invokeTo] at h
    cases hr : Routine.ofFunction f with
    | error e' =>
      simp only [hr, Bounded.ofExcept, Bounded.failed_bind, Bounded.failed.injEq] at h
      exact h ▸ predicts_of_ofCode (.body hf) hr
    | ok routine =>
      simp only [hr, Bounded.ofExcept, Bounded.done_bind] at h
      cases hs : routine.finishWith p.functions (p.functions.invokeTo bound depth) bound
          (routine.start vs) with
      | done s => rw [hs] at h; cases h
      | unfinished => rw [hs] at h; cases h
      | failed e' => rw [hs] at h; cases h; exact predicts_of_finishWith (.body hf) hr ih hs

theorem predicts_of_step (hr : p.routine = .ok routine) {bound : Nat} {s s' : State} {e : Fault}
    (hs : routine.step p.functions bound s = .failed e s') : p.Predicts e :=
  predicts_of_stepWith .main hr (p.foresees_invokeTo bound _) hs

theorem predicts_of_run (hr : p.routine = .ok routine) {bound : Nat} {inputs : List Value}
    {e : Fault} (h : routine.run p.functions bound inputs = .failed e) : p.Predicts e := by
  rw [Routine.run] at h
  cases hs : routine.finish p.functions bound (routine.start inputs) with
  | done s => rw [hs] at h; cases h
  | unfinished => rw [hs] at h; cases h
  | failed e' =>
    rw [hs] at h; cases h
    exact predicts_of_finishWith .main hr (p.foresees_invokeTo bound _) hs

/-- The sequence that a request runs. -/
theorem prepare_ok {q : Request} (h : p.prepare q = .ok routine) :
    ∃ s, p.expandTo q.degree = .ok s ∧ q.tier.firstUnsupported s.instructions = none ∧
      Routine.ofCode s.instructions .program = .ok routine := by
  rw [prepare] at h
  cases hs : p.expandTo q.degree with
  | error e => rw [hs] at h; cases h
  | ok s =>
    simp only [hs, bind, Except.bind] at h
    split at h
    · cases h
    · next hf => exact ⟨s, rfl, hf, h⟩

/-- In a program without issues there is nothing to predict. -/
theorem not_predicts_of_isValid (h : p.isValid = true) (e : Fault) : ¬ p.Predicts e := by
  have hi : p.issues = [] := List.isEmpty_iff.mp h
  cases e <;> simp [Predicts, hi]

/-- Every fault of a direct run stands in the list of issues: a fault in making the program ready,
in any step from any state, and in a whole run; and a program without issues has none of them. -/
theorem issues_predict_direct_run (p : Program) :
    (∀ e, p.routine = .error e → p.Predicts e) ∧
    (∀ routine, p.routine = .ok routine → ∀ bound e,
      (∀ s s', routine.step p.functions bound s = .failed e s' → p.Predicts e) ∧
      (∀ inputs, routine.run p.functions bound inputs = .failed e → p.Predicts e)) ∧
    (p.isValid = true → ∃ routine, p.routine = .ok routine ∧ ∀ bound e,
      (∀ s s', routine.step p.functions bound s ≠ .failed e s') ∧
      (∀ inputs, routine.run p.functions bound inputs ≠ .failed e)) := by
  refine ⟨fun e he => predicts_of_ofCode .main he,
    fun routine hr bound e => ⟨fun s s' => predicts_of_step hr, fun inputs => predicts_of_run hr⟩,
    fun hp => ?_⟩
  cases hr : p.routine with
  | error e => exact (not_predicts_of_isValid hp e (predicts_of_ofCode .main hr)).elim
  | ok routine =>
    exact ⟨routine, rfl, fun bound e =>
      ⟨fun s s' hs => not_predicts_of_isValid hp e (predicts_of_step hr hs),
        fun inputs h => not_predicts_of_isValid hp e (predicts_of_run hr h)⟩⟩

end Program

end SLanguage
