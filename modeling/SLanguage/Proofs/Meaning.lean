import SLanguage.Proofs.Simulation

/-!
# Expansion preserves meaning

A valid program without a label at the exit runs at every degree as it runs directly: neither run
fails, both end or neither does, and if they end, with the same result and the same values of all
variables that the program mentions or that hold an input. The sequences end together by
`Registry.expandTo_equivalent`; what is added here is that a final list of values says of a variable
what its frame says (`Outcome.value_eq`).
-/

namespace SLanguage

/-! ## Final values -/

/-- The value of a variable at the end of a run; one that is not listed is zero. -/
def Outcome.value (o : Outcome) (v : Variable) : Value := (o.vars.lookup v).getD 0

namespace Frame

theorem lookup_toList (f : Frame) (v : Variable) : f.toList.lookup v = f.values[v]? := by
  have hnd : (f.toList.map (·.1)).Nodup := by
    rw [toList, Std.TreeMap.map_fst_toList_eq_keys]
    exact Std.TreeMap.nodup_keys
  cases hv : f.values[v]? with
  | some w => exact lookup_of_mem hnd (Std.TreeMap.mem_toList_iff_getElem?_eq_some.mpr hv)
  | none =>
    cases hl : f.toList.lookup v with
    | none => rfl
    | some w =>
      rw [Std.TreeMap.mem_toList_iff_getElem?_eq_some.mp (mem_of_lookup hl)] at hv
      cases hv

/-- The frame holds no constant. -/
def ConstantFree (f : Frame) : Prop := ∀ v : Variable, v.isConstant = true → f.values[v]? = none

theorem constantFree_set {f : Frame} (h : f.ConstantFree) (v : Variable) (w : Value) :
    (f.set v w).ConstantFree := by
  intro u hu
  rw [set]
  split
  · exact h u hu
  · next hv =>
    rw [Std.TreeMap.getElem?_insert, if_neg, h u hu]
    intro e
    rw [Std.LawfulEqOrd.eq_of_compare e] at hv
    exact hv hu

theorem constantFree_declare {f : Frame} (h : f.ConstantFree) (vs : List Variable) :
    (f.declare vs).ConstantFree := by
  unfold declare
  induction vs generalizing f with
  | nil => exact h
  | cons v rest ih =>
    refine ih fun u hu => ?_
    dsimp only
    split
    · exact h u hu
    · next hv =>
      rw [Std.TreeMap.getElem?_insertIfNew, if_neg, h u hu]
      rintro ⟨e, -⟩
      rw [Std.LawfulEqOrd.eq_of_compare e] at hv
      exact hv hu

theorem constantFree_starting (code : List Instruction) (inputs : List Value) :
    (starting code inputs).ConstantFree := by
  refine constantFree_declare (fun v hv => ?_) _
  refine getElem?_foldl_insert_of_ne (fun k _ e => ?_) ∅
  rw [e] at hv
  cases hv

end Frame

theorem Command.Executes.constantFree {r : Registry} {c : Command} {f f' : Frame} {signal : Signal}
    (h : c.Executes r f f' signal) (hf : f.ConstantFree) : f'.ConstantFree := by
  obtain ⟨w, -, h⟩ := h
  cases c <;> cases h <;> first | exact hf | exact Frame.constantFree_set hf _ _

theorem Ends.constantFree {r : Registry} {code : List Instruction} {n : Nat} {c : Spot} {g : Frame}
    (h : Ends r code n c g) (hc : c.2.ConstantFree) : g.ConstantFree := by
  induction h with
  | stop _ => exact hc
  | move hm _ ih =>
    obtain ⟨i, signal, -, hx, -⟩ := hm
    exact ih (hx.constantFree hc)

/-- What the final list says of a variable is what the frame says. -/
theorem Outcome.value_eq {o : Outcome} {g : Frame} (ho : o.vars = g.toList) (hg : g.ConstantFree)
    (v : Variable) : o.value v = if v.isConstant then 0 else g.get v := by
  rw [value, ho, g.lookup_toList]
  split
  · next hv => rw [hg v hv]; rfl
  · next hv => rw [g.get_of_not_constant (by simpa using hv)]

/-! ## Programs -/

theorem Names.oldVar_result (n : Names) : n.OldVar .result := by
  intro k e
  cases e

namespace Program

variable {p : Program} {q : Request} {code : List Instruction}

/-- The run does not end within any bound. -/
def Diverges (p : Program) (q : Request) : Prop := ∀ bound, p.run bound q = .unfinished

/-- The run ends with this outcome, with every bound that is large enough. -/
def Halts (p : Program) (q : Request) (o : Outcome) : Prop :=
  ∃ least, ∀ bound, least ≤ bound → p.run bound q = .done o

/-- A variable that the program mentions, or that holds an input. -/
def Observes (p : Program) (inputs : List Value) (v : Variable) : Prop :=
  (∃ i ∈ p.instructions, v ∈ i.vars) ∨ ∃ k, k < inputs.length ∧ v = .ofInputIndex k

theorem halts_of_run {m : Nat} {o : Outcome} (h : p.run m q = .done o) : p.Halts q o :=
  ⟨m, fun _ hle => (run_le hle q).done h⟩

/-- No bound gives another outcome. -/
theorem Halts.eq_of_run {m : Nat} {o o' : Outcome} (h : p.Halts q o) (hr : p.run m q = .done o') :
    o' = o := by
  obtain ⟨least, h⟩ := h
  have hmax := (run_le (Nat.le_max_left m least) q).done hr
  rw [h _ (Nat.le_max_right m least)] at hmax
  exact (Bounded.done.inj hmax).symm

theorem Halts.result_eq {m : Nat} {o : Outcome} {w : Value} (h : p.Halts q o)
    (hr : (p.run m q).bind (fun o => .done o.result) = .done w) : o.result = w := by
  cases hm : p.run m q with
  | done o' =>
    rw [hm, h.eq_of_run hm] at hr
    exact Bounded.done.inj hr
  | failed e => rw [hm] at hr; cases hr
  | unfinished => rw [hm] at hr; cases hr

theorem WellFormed.sound (h : p.WellFormed) (hx : p.ExitFree) : p.functions.Sound :=
  ⟨(h.regular hx).2, fun _ hn => h.grounded hn⟩

/-- A request for a valid sequence can be met, and its run does not fail. -/
theorem exists_routine (hv : ({ p with instructions := code } : Program).isValid = true)
    (hq : p.prepare q = Routine.ofCode code .program) :
    ∃ routine, Routine.ofCode code .program = .ok routine ∧
      ∀ bound e, p.run bound q ≠ .failed e := by
  obtain ⟨routine, hp⟩ := (isValid_iff.mp hv).main.exists_routine .program
  refine ⟨routine, hp, fun bound e he => not_predicts_of_isValid hv e ?_⟩
  rw [run, hq, hp, Bounded.ofExcept, Bounded.done_bind] at he
  exact predicts_of_run hp he

/-- Where the sequence does not end and no run fails, no bound is enough. -/
theorem diverges_of_not_ends {routine : Routine} (hq : p.prepare q = .ok routine)
    (hp : Routine.ofCode code .program = .ok routine) (hf : ∀ bound e, p.run bound q ≠ .failed e)
    (h : ¬ ∃ m g, Ends p.functions code m (0, .starting code q.inputs) g) : p.Diverges q := by
  intro bound
  cases hr : p.run bound q with
  | unfinished => rfl
  | failed e => exact absurd hr (hf bound e)
  | done o =>
    obtain ⟨m, g, he, -⟩ := ends_of_run hq hp hr
    exact absurd ⟨m, g, he⟩ h

theorem prepare_zero (p : Program) (inputs : List Value) :
    p.prepare { inputs } = Routine.ofCode p.instructions .program := by
  have hs : p.expandTo 0 = .ok (.ofCode p.instructions) := rfl
  rw [prepare_four rfl hs, Snapshot.instructions_ofCode]

theorem Observes.oldVar {inputs : List Value} {v : Variable} (h : p.Observes inputs v) :
    (Names.above p.instructions).OldVar v := by
  rcases h with ⟨i, hi, hv⟩ | ⟨k, -, rfl⟩
  · exact ((Names.above_spec p.instructions).2 i hi).vars v hv
  · intro j e
    cases e

/-- At every degree that it reaches, a valid program runs on the full machine as it runs
directly. -/
theorem run_expanded (p : Program) (hv : p.isValid = true) (hx : p.ExitFree) (degree : Nat)
    (s : Snapshot) (hs : p.expandTo degree = .ok s) (inputs : List Value) :
    (∀ bound e, p.run bound { inputs } ≠ .failed e ∧
      p.run bound { inputs, degree } ≠ .failed e) ∧
    (p.Diverges { inputs } ∧ p.Diverges { inputs, degree } ∨
      ∃ o o', p.Halts { inputs } o ∧ p.Halts { inputs, degree } o' ∧ o.result = o'.result ∧
        ∀ v, p.Observes inputs v → o.value v = o'.value v) := by
  have hw := isValid_iff.mp hv
  have hr := hw.sound hx
  have hcode := (hw.regular hx).1
  have hq := p.prepare_zero inputs
  have hq' := p.prepare_four (q := { inputs, degree }) rfl hs
  have hv' := hw.isValid_expandTo hx hs
  obtain ⟨routine, hp, hf⟩ := exists_routine hv hq
  obtain ⟨routine', hp', hf'⟩ := exists_routine hv' hq'
  rw [hp] at hq
  rw [hp'] at hq'
  have heq := Registry.expandTo_equivalent hr hcode hs
  refine ⟨fun bound e => ⟨hf bound e, hf' bound e⟩, ?_⟩
  by_cases hends : ∃ m g, Ends p.functions p.instructions m (0, .starting p.instructions inputs) g
  · obtain ⟨m, g, he⟩ := hends
    obtain ⟨m', g', he'⟩ := (heq.ends inputs).mp ⟨m, g, he⟩
    have hval := heq.values inputs m m' g g' he he'
    obtain ⟨n, hn⟩ := Registry.expandTo_serves hr.regular hcode hs
    obtain ⟨b, o, ho, hres, hvars⟩ := run_of_ends hq hp (hcode.grounded hr) he
    obtain ⟨b', o', ho', hres', hvars'⟩ := run_of_ends hq' hp' (hn.regular.grounded hr) he'
    refine .inr ⟨o, o', halts_of_run ho, halts_of_run ho', ?_, fun v hv => ?_⟩
    · rw [hres, hres', hval .result (Names.oldVar_result _)]
    · rw [Outcome.value_eq hvars (he.constantFree (Frame.constantFree_starting _ _)),
        Outcome.value_eq hvars' (he'.constantFree (Frame.constantFree_starting _ _)),
        hval v hv.oldVar]
  · exact .inl ⟨diverges_of_not_ends hq hp hf hends,
      diverges_of_not_ends hq' hp' hf' (mt (heq.ends inputs).mpr hends)⟩

theorem run_demo_expanded : Demo.program.isValid = true ∧ Demo.program.ExitFree ∧
    (∃ s, Demo.program.expandTo 3 = .ok s) ∧
    ∃ o o', Demo.program.Halts { inputs := [2, 5] } o ∧
      Demo.program.Halts { inputs := [2, 5], degree := 3 } o' ∧ o.result = 1 ∧ o'.result = 1 ∧
      ∀ v, Demo.program.Observes [2, 5] v → o.value v = o'.value v := by
  have hv : Demo.program.isValid = true := by decide +kernel
  have hx : Demo.program.ExitFree := by decide +kernel
  have hok : (Demo.program.expandTo 3).isOk = true := by decide +kernel
  have hrun : (Demo.program.run 20 { inputs := [2, 5] }).bind (fun o => .done o.result) =
      .done 1 := by decide +kernel
  cases hs : Demo.program.expandTo 3 with
  | error e => rw [hs] at hok; cases hok
  | ok s =>
    obtain ⟨-, ⟨hd, -⟩ | ⟨o, o', ho, ho', he, hval⟩⟩ :=
      run_expanded Demo.program hv hx 3 s hs [2, 5]
    · rw [hd 20] at hrun; cases hrun
    · have hres : o.result = 1 := by
        cases hd : Demo.program.run 20 { inputs := [2, 5] } with
        | done o1 =>
          rw [hd, ho.eq_of_run hd] at hrun
          exact Bounded.done.inj hrun
        | failed e => rw [hd] at hrun; cases hrun
        | unfinished => rw [hd] at hrun; cases hrun
      exact ⟨hv, hx, ⟨s, rfl⟩, o, o', ho, ho', hres, he ▸ hres, hval⟩

end Program

end SLanguage
