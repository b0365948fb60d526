import SLanguage.Proofs.Steps

/-!
# Bounded runs and the relation agree

A bounded run that finishes is a run that ends (`ends_of_finishWith`), and a run that ends is found
by every large enough bound and depth (`finishWith_of_ends`). So a function answers exactly what its
body ends with (`Answers.ends`, `answers_of_ends`), and a program is done exactly when its sequence
ends (`ends_of_run`, `run_of_ends`).
-/

namespace SLanguage

variable {r : Registry} {code : List Instruction}

/-- The state stands at a position of the sequence; past the end it has halted. -/
structure State.At (code : List Instruction) (s : State) (pc : Nat) : Prop where
  halted : s.halted = decide (code.length ≤ pc)
  pointer : s.halted = false → s.pointer = pc

/-! ## One step -/

namespace Routine

variable {scope : Scope} {p : Routine} {invoke : Invoke} {s s' : State} {pc : Nat}

theorem stepWith_eq_halted (h : s.At code pc) (hpc : code.length ≤ pc) :
    p.stepWith r invoke s = .halted := by
  have hh : s.halted = true := by rw [h.halted]; exact decide_eq_true hpc
  rw [stepWith, if_pos hh]

theorem At_moveTo (hp : p.code = code.toArray) (s : State) (pc : Nat) :
    (p.moveTo s pc).At code pc := by
  refine ⟨?_, fun _ => rfl⟩
  rw [moveTo, hp, List.size_toArray]

theorem follow_of_goes (hp : ofCode code scope = .ok p) (hpt : s.pointer = pc) {signal : Signal}
    {pc' : Nat} (hg : Goes code (pc + 1) signal pc') :
    ∃ s', p.follow s signal = .ok s' ∧ s'.frame = s.frame ∧ s'.At code pc' := by
  obtain ⟨hcode, -, hl⟩ := ofCode_ok hp
  cases hg with
  | next => exact ⟨_, rfl, rfl, hpt ▸ At_moveTo hcode s _⟩
  | halt =>
    refine ⟨_, rfl, rfl, (decide_eq_true (Nat.le_refl _)).symm, fun h => ?_⟩
    cases h
  | jump hn hi hl' =>
    have hpos := (LabelTable.position?_ofCode hl _ pc').mpr ⟨hn, _, hi, hl'⟩
    rw [follow, hpos]
    exact ⟨_, rfl, rfl, At_moveTo hcode s pc'⟩

theorem goes_of_follow (hp : ofCode code scope = .ok p) {signal : Signal}
    (h : p.follow s signal = .ok s') (hpt : s.pointer = pc) :
    s'.frame = s.frame ∧ ∃ pc', Goes code (pc + 1) signal pc' ∧ s'.At code pc' := by
  obtain ⟨hcode, -, hl⟩ := ofCode_ok hp
  cases signal with
  | next => cases h; exact ⟨rfl, pc + 1, .next, hpt ▸ At_moveTo hcode s _⟩
  | halt =>
    cases h
    refine ⟨rfl, code.length, .halt, (decide_eq_true (Nat.le_refl _)).symm, fun h => ?_⟩
    cases h
  | jump l =>
    rw [follow] at h
    cases hpos : p.labels.position? l with
    | none => rw [hpos] at h; cases h
    | some pc' =>
      rw [hpos] at h; cases h
      obtain ⟨hn, i, hi, hl'⟩ := (LabelTable.position?_ofCode hl l pc').mp hpos
      exact ⟨rfl, pc', .jump hn hi hl', At_moveTo hcode s pc'⟩

/-- The step of a state that has not halted, when the instruction has a cost: the state is charged,
and then the signal is followed. -/
theorem stepWith_charged (hp : ofCode code scope = .ok p) (hs : s.At code pc)
    {i : Instruction} (hi : code[pc]? = some i) (hg : ∀ n ∈ i.callNames, r.Grounded n) {f' : Frame}
    {signal : Signal}
    (hx : i.command.execute (Call.value r invoke ⟨p.scope, s.position⟩ s.frame) s.frame =
      .done (f', signal)) :
    ∃ cost charged, State.frame charged = f' ∧ charged.pointer = pc ∧
      (∀ s', p.follow charged signal = .ok s' →
        p.stepWith r invoke s = .took ⟨s.position, signal, cost, s'.halted⟩ s') ∧
      ∀ e, p.follow charged signal = .error e → p.stepWith r invoke s = .failed e charged := by
  have hlt := (List.getElem?_eq_some_iff.mp hi).1
  have hh : s.halted = false := by rw [hs.halted]; exact decide_eq_false (Nat.not_le.mpr hlt)
  have hpt := hs.pointer hh
  obtain ⟨cost, hc⟩ : ∃ cost, (r.instructionCost ⟨p.scope, s.position⟩ i).fresh = .ok cost :=
    Registry.exists_instructionCost_iff.mpr hg
  have hi' : p.code[s.pointer]? = some i := by
    rw [(ofCode_ok hp).1, List.getElem?_toArray, hpt]
    exact hi
  refine ⟨cost, { s with frame := f', cycles := Word.add s.cycles cost, steps := s.steps + 1 },
    rfl, hpt, fun s' hf => ?_, fun e hf => ?_⟩
  all_goals
    rw [stepWith_of_cost hh hi' hc]
    simp only [perform, hx, hf]

theorem stepWith_of_execute (hp : ofCode code scope = .ok p) (hs : s.At code pc)
    {i : Instruction} (hi : code[pc]? = some i) (hg : ∀ n ∈ i.callNames, r.Grounded n) {f' : Frame}
    {signal : Signal}
    (hx : i.command.execute (Call.value r invoke ⟨p.scope, s.position⟩ s.frame) s.frame =
      .done (f', signal)) {pc' : Nat} (hgo : Goes code (pc + 1) signal pc') :
    ∃ report s', p.stepWith r invoke s = .took report s' ∧ s'.frame = f' ∧ s'.At code pc' := by
  obtain ⟨cost, charged, rfl, hpt, hok, -⟩ := stepWith_charged hp hs hi hg hx
  obtain ⟨s', hf, hframe, hat⟩ := follow_of_goes hp hpt hgo
  exact ⟨_, s', hok s' hf, hframe, hat⟩

/-- What a step did. -/
theorem of_stepWith_took (hp : ofCode code scope = .ok p) (hs : s.At code pc) {report : Report}
    (h : p.stepWith r invoke s = .took report s') :
    ∃ i signal pc', code[pc]? = some i ∧
      i.command.execute (Call.value r invoke ⟨p.scope, s.position⟩ s.frame) s.frame =
        .done (s'.frame, signal) ∧
      Goes code (pc + 1) signal pc' ∧ s'.At code pc' := by
  obtain ⟨i, cost, f', signal, hh, hi, -, hx, hf, -⟩ := stepWith_took_cases h
  have hpt := hs.pointer hh
  rw [(ofCode_ok hp).1, List.getElem?_toArray, hpt] at hi
  obtain ⟨hframe, pc', hgo, hat⟩ := goes_of_follow hp hf hpt
  exact ⟨i, signal, pc', hi, hframe ▸ hx, hgo, hat⟩

theorem le_of_stepWith_halted (hp : ofCode code scope = .ok p) (hs : s.At code pc)
    (h : p.stepWith r invoke s = .halted) : code.length ≤ pc := by
  rcases stepWith_halted_cases h with hh | ⟨hh, hi⟩
  · rw [hs.halted] at hh
    exact of_decide_eq_true hh
  · rw [(ofCode_ok hp).1, List.getElem?_toArray, hs.pointer hh] at hi
    exact List.getElem?_eq_none_iff.mp hi

end Routine

/-! ## Whole runs -/

/-- A command that a bounded evaluation executes can be executed. -/
theorem Command.executes_of_execute {m d : Nat} {site : Site} {c : Command} {f f' : Frame}
    {signal : Signal}
    (h : c.execute (Call.value r (r.invokeTo m d) site f) f = .done (f', signal)) :
    c.Executes r f f' signal := by
  cases hc : c.call? with
  | none =>
    refine .plain hc (Eq.trans (execute_congr fun call hcall => ?_) h)
    rw [hc] at hcall; cases hcall
  | some call =>
    cases hv : Call.value r (r.invokeTo m d) site f call with
    | done w =>
      refine ⟨w, fun call' hcall => ?_, Eq.trans (execute_congr fun call' hcall => ?_) h⟩
      · rw [hc] at hcall; cases hcall
        exact Argument.worth_of_value hv
      · rw [hc] at hcall; cases hcall
        exact hv.symm
    | failed e => cases c <;> cases hc <;> (rw [execute, hv] at h; cases h)
    | unfinished => cases c <;> cases hc <;> (rw [execute, hv] at h; cases h)

/-- What can be executed, every evaluation with enough bound and depth executes. -/
theorem Command.Executes.exists_bound {c : Command} {f f' : Frame} {signal : Signal}
    (h : c.Executes r f f' signal) (site : Site) :
    ∃ bound depth, ∀ m, bound ≤ m → ∀ d, depth ≤ d →
      c.execute (Call.value r (r.invokeTo m d) site f) f = .done (f', signal) := by
  obtain ⟨w, hw, h⟩ := h
  cases hc : c.call? with
  | none =>
    refine ⟨0, 0, fun m _ d _ => Eq.trans (execute_congr fun call hcall => ?_) h⟩
    rw [hc] at hcall; cases hcall
  | some call =>
    obtain ⟨bound, depth, hv⟩ := (hw call hc).exists_bound site
    refine ⟨bound, depth, fun m hm d hd => Eq.trans (execute_congr fun call' hcall => ?_) h⟩
    rw [hc] at hcall; cases hcall
    exact hv m hm d hd

namespace Routine

variable {scope : Scope} {p : Routine} {s s' : State} {pc : Nat}

/-- A bounded run that finishes is a run that ends. -/
theorem ends_of_finishWith (hp : ofCode code scope = .ok p) {m d bound : Nat} (hs : s.At code pc)
    (h : p.finishWith r (r.invokeTo m d) bound s = .done s') :
    ∃ n, Ends r code n (pc, s.frame) s'.frame := by
  induction bound generalizing s pc with
  | zero => cases h
  | succ bound ih =>
    rw [finishWith] at h
    split at h
    · next hstep => cases h; exact ⟨0, .stop (le_of_stepWith_halted hp hs hstep)⟩
    · next report next hstep =>
      obtain ⟨i, signal, pc', hi, hx, hgo, hat⟩ := of_stepWith_took hp hs hstep
      obtain ⟨n, he⟩ := ih hat h
      exact ⟨n + 1, .move ⟨i, signal, hi, Command.executes_of_execute hx, hgo⟩ he⟩
    · cases h
    · cases h

/-- A run that ends is found with every large enough bound and depth. -/
theorem finishWith_of_ends (hp : ofCode code scope = .ok p)
    (hg : ∀ i ∈ code, ∀ n ∈ i.callNames, r.Grounded n) {n : Nat} {c : Spot} {g : Frame}
    (he : Ends r code n c g) : ∃ bound depth, ∀ m, bound ≤ m → ∀ d, depth ≤ d → ∀ k, n < k →
      ∀ s : State, s.At code c.1 → s.frame = c.2 →
      ∃ s', p.finishWith r (r.invokeTo m d) k s = .done s' ∧ s'.frame = g := by
  induction he with
  | stop ho =>
    refine ⟨0, 0, fun m _ d _ k hk s hs hf => ⟨s, ?_, hf⟩⟩
    obtain ⟨k, rfl⟩ : ∃ j, k = j + 1 := ⟨k - 1, by omega⟩
    rw [finishWith, stepWith_eq_halted hs ho]
  | @move n c c' g h _ ih =>
    obtain ⟨i, signal, hi, hx, hgo⟩ := h
    obtain ⟨m1, d1, h1⟩ := hx.exists_bound ⟨p.scope, c.1 + 1⟩
    obtain ⟨m2, d2, h2⟩ := ih
    refine ⟨max m1 m2, max d1 d2, fun m hm d hd k hk s hs hf => ?_⟩
    obtain ⟨k, rfl⟩ : ∃ j, k = j + 1 := ⟨k - 1, by omega⟩
    have hlt := (List.getElem?_eq_some_iff.mp hi).1
    have hpt : s.position = c.1 + 1 := by
      rw [State.position, hs.pointer]
      rw [hs.halted]; exact decide_eq_false (Nat.not_le.mpr hlt)
    have hx := h1 m (by omega) d (by omega)
    rw [← hf, ← hpt] at hx
    obtain ⟨report, s1, hstep, hframe, hat⟩ :=
      stepWith_of_execute hp hs hi (hg i (List.mem_of_getElem? hi)) hx hgo
    rw [finishWith, hstep]
    exact h2 m (by omega) d (by omega) k (by omega) s1 hat hframe

end Routine

/-- The frame in which a run on these inputs starts. -/
def Frame.starting (code : List Instruction) (inputs : List Value) : Frame :=
  (Frame.ofInputs inputs).declare (.result :: code.flatMap (·.vars))

theorem Frame.get_starting (code : List Instruction) (inputs : List Value) (v : Variable) :
    (Frame.starting code inputs).get v = (Frame.ofInputs inputs).get v :=
  Frame.get_declare ..

namespace Routine

variable {scope : Scope} {p : Routine}

theorem start_at (hp : ofCode code scope = .ok p) (inputs : List Value) :
    (p.start inputs).At code 0 ∧ (p.start inputs).frame = .starting code inputs := by
  obtain ⟨hcode, -⟩ := ofCode_ok hp
  refine ⟨⟨?_, fun _ => rfl⟩, ?_⟩
  · rw [start, hcode]
    cases code <;> rfl
  · rw [start, hcode]
    rfl

end Routine

/-- No instruction writes to a constant. -/
def Assignable (code : List Instruction) : Prop :=
  ∀ i ∈ code, ∀ v, i.command.written? = some v → v.isConstant = false

/-- A sequence that can be made ready writes to no constant. -/
theorem Routine.assignable_of_ofCode {scope : Scope} {p : Routine} (h : ofCode code scope = .ok p) :
    Assignable code := by
  have hfixed : firstFixedTarget? code scope = none := by
    cases ht : LabelTable.ofCode code scope with
    | error e => rw [ofCode, ht] at h; cases h
    | ok t =>
      cases hf : firstFixedTarget? code scope with
      | none => rfl
      | some e => rw [ofCode, ht, hf] at h; cases h
  intro i hi v hv
  obtain ⟨k, hk⟩ := List.getElem?_of_mem hi
  have := List.findSome?_eq_none_iff.mp hfixed (i, 1 + k)
    (List.mk_add_mem_zipIdx_iff_getElem?.mpr hk)
  simpa [hv, Variable.isWritable] using this

/-- A sequence can be made ready exactly if no label stands twice and it writes to no constant. -/
theorem Routine.exists_ofCode_iff {scope : Scope} :
    (∃ p, ofCode code scope = .ok p) ↔ (attached code).Nodup ∧ Assignable code := by
  constructor
  · rintro ⟨p, hp⟩
    exact ⟨LabelTable.nodup_of_ofCode (ofCode_ok hp).2.2, assignable_of_ofCode hp⟩
  · rintro ⟨hu, hw⟩
    obtain ⟨t, ht⟩ := LabelTable.exists_ofCode hu
    have hfixed : firstFixedTarget? code scope = none := by
      refine List.findSome?_eq_none_iff.mpr fun x hx => ?_
      cases hv : x.1.command.written? with
      | none => simp [hv]
      | some v =>
        have := hw x.1 (List.fst_mem_of_mem_zipIdx hx) v hv
        simp [hv, Variable.isWritable, this]
    exact ⟨⟨code.toArray, t, scope⟩, by rw [ofCode, ht, hfixed]; rfl⟩

/-- A sequence can be run if no label stands twice and no operand is a constant. -/
theorem Routine.exists_ofCode (hu : (attached code).Nodup)
    (hw : ∀ i ∈ code, ∀ v ∈ i.command.operands, v.isConstant = false) (scope : Scope) :
    ∃ p, Routine.ofCode code scope = .ok p :=
  exists_ofCode_iff.mpr
    ⟨hu, fun i hi v hv => hw i hi v (Command.written?_mem_operands hv)⟩

theorem WellFormed.exists_routine (h : WellFormed r code) (scope : Scope) :
    ∃ p, Routine.ofCode code scope = .ok p :=
  Routine.exists_ofCode h.unique (fun i hi => (h.fits i hi).writable) scope

/-! ## Functions -/

/-- Every body is regular and every function grounded. -/
structure Registry.Sound (r : Registry) : Prop where
  regular : r.Regular
  grounded : ∀ name, r.contains name = true → r.Grounded name

theorem Regular.grounded (h : Regular r code) (hr : r.Sound) :
    ∀ i ∈ code, ∀ n ∈ i.callNames, r.Grounded n :=
  fun i hi n hn => hr.grounded n ((h.fits i hi).known n hn)

/-- The body of a function that answers is a routine, and it ends with the answer. -/
theorem Registry.Answers.ends {f : Function} {vs : List Value} {w : Value}
    (h : r.Answers f vs w) : ∃ p, Routine.ofFunction f = .ok p ∧
      ∃ n g, Ends r f.body n (0, .starting f.body vs) g ∧ g.get .result = w := by
  obtain ⟨m, d, h⟩ := h
  cases d with
  | zero => cases h
  | succ d =>
    rw [invokeTo] at h
    cases hp : Routine.ofFunction f with
    | error e => rw [hp] at h; cases h
    | ok p =>
      rw [hp, Bounded.ofExcept, Bounded.done_bind] at h
      obtain ⟨hat, hframe⟩ := Routine.start_at hp vs
      cases hs : p.finishWith r (r.invokeTo m d) m (p.start vs) with
      | failed e => rw [hs] at h; cases h
      | unfinished => rw [hs] at h; cases h
      | done s =>
        rw [hs] at h; cases h
        obtain ⟨n, he⟩ := Routine.ends_of_finishWith hp hat hs
        exact ⟨p, rfl, n, _, hframe ▸ he, rfl⟩

/-- A function answers what its body ends with. -/
theorem Registry.answers_of_ends (hr : r.Sound) {name : String} {f : Function}
    (hf : r.get? name = some f) {vs : List Value} {n : Nat} {g : Frame}
    (he : Ends r f.body n (0, .starting f.body vs) g) : r.Answers f vs (g.get .result) := by
  have hbody := hr.regular name f hf
  obtain ⟨p, hp⟩ := hbody.exists_routine f.scope
  obtain ⟨hat, hframe⟩ := Routine.start_at hp vs
  obtain ⟨m, d, h⟩ := Routine.finishWith_of_ends hp (hbody.grounded hr) he
  obtain ⟨s, hs, hg⟩ := h (max m (n + 1)) (by omega) d (Nat.le_refl d) (max m (n + 1)) (by omega)
    _ hat hframe
  refine ⟨max m (n + 1), d + 1, ?_⟩
  rw [invokeTo, Routine.ofFunction, hp, Bounded.ofExcept, Bounded.done_bind, hs,
    Bounded.done_bind, ← hg]
  rfl

/-! ## Programs -/

theorem Tier.firstUnsupported_four (code : List Instruction) :
    Tier.four.firstUnsupported code = none := by
  have h : ∀ o, Tier.four.supports o = true := fun o => by cases o <;> rfl
  exact List.findSome?_eq_none_iff.mpr fun x _ => by simp [h]

namespace Program

variable {p : Program} {q : Request} {routine : Routine}

theorem prepare_four (ht : q.tier = .four) {s : Snapshot} (hs : p.expandTo q.degree = .ok s) :
    p.prepare q = Routine.ofCode s.instructions .program := by
  rw [prepare, hs, ht]
  simp only [bind, Except.bind, Tier.firstUnsupported_four]

theorem run_le {m n : Nat} (hmn : m ≤ n) (q : Request) : (p.run m q).Le (p.run n q) := by
  rw [run, run]
  cases p.prepare q with
  | error e => exact .refl _
  | ok routine => exact (routine.finish_le hmn _).bind fun s => .refl _

section
variable (hq : p.prepare q = .ok routine) (hp : Routine.ofCode code .program = .ok routine)
include hq hp

/-- A run that is done is a run that ends. -/
theorem ends_of_run {m : Nat} {o : Outcome} (h : p.run m q = .done o) :
    ∃ n g, Ends p.functions code n (0, .starting code q.inputs) g ∧
      o.result = g.get .result ∧ o.vars = g.toList := by
  obtain ⟨hat, hframe⟩ := Routine.start_at hp q.inputs
  rw [run, hq, Bounded.ofExcept, Bounded.done_bind, Routine.run] at h
  cases hs : routine.finish p.functions m (routine.start q.inputs) with
  | failed e => rw [hs] at h; cases h
  | unfinished => rw [hs] at h; cases h
  | done s =>
    rw [hs] at h; cases h
    obtain ⟨n, he⟩ := Routine.ends_of_finishWith hp hat hs
    exact ⟨n, _, hframe ▸ he, rfl, rfl⟩

/-- A run that ends is done within some bound: no chain of calls is deeper than the functions are
many. -/
theorem run_of_ends (hg : ∀ i ∈ code, ∀ n ∈ i.callNames, p.functions.Grounded n) {n : Nat}
    {g : Frame} (he : Ends p.functions code n (0, .starting code q.inputs) g) :
    ∃ m o, p.run m q = .done o ∧ o.result = g.get .result ∧ o.vars = g.toList := by
  obtain ⟨hat, hframe⟩ := Routine.start_at hp q.inputs
  obtain ⟨m, d, h⟩ := Routine.finishWith_of_ends hp hg he
  obtain ⟨s, hs, rfl⟩ := h (max m (n + 1)) (by omega) d (Nat.le_refl d) (max m (n + 1)) (by omega)
    _ hat hframe
  have hle := Registry.invokeTo_leOn_invoke p.functions (max m (n + 1)) d fun _ => True
  have hfin := (Routine.finishWith_le (hle.mono fun _ _ => trivial) (Nat.le_refl _) _).done hs
  refine ⟨max m (n + 1), s.outcome, ?_, rfl, rfl⟩
  rw [run, hq, Bounded.ofExcept, Bounded.done_bind, Routine.run, Routine.finish, hfin,
    Bounded.done_bind]

end

end Program

end SLanguage
