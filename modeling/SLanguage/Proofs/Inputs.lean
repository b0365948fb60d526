import SLanguage.Proofs.Lockstep
import SLanguage.Proofs.Meaning
import SLanguage.Proofs.Strays

/-!
# What a run reads of its inputs

Two frames that agree on the variables in play stay so: a command reads and writes nothing else, and
a call hands values on, never the frame. So two runs of one routine from such frames go in lockstep
(`Routine.matched_self`). Expansion names no further input, so the inputs that a program names are
the variables in play at every degree, and inputs that agree there make runs that cannot be told
apart (`Program.RunsAlike`).
-/

namespace SLanguage

/-! ## Runs in lockstep -/

/-- The outcomes of runs that differ at most in variables that are not read. -/
structure Outcome.Alike (o o' : Outcome) : Prop where
  result : o.result = o'.result
  cycles : o.cycles = o'.cycles
  steps : o.steps = o'.steps

namespace Routine

variable {S : Variable → Prop} {r : Registry} {p : Routine}

/-- A routine keeps the agreement of two frames on the variables that it names. -/
theorem matched_self (hp : ∀ i ∈ p.code.toList, ∀ v ∈ i.vars, S v) :
    Matched r (Frame.Carried id S) id p p where
  scope := rfl
  size := rfl
  position _ := rfl
  exit _ := Iff.rfl
  keeps k i hi := by
    have hvars := hp i (by rw [Array.mem_toList_iff]; exact Array.mem_of_getElem? hi)
    refine ⟨i, hi, fun _ => rfl, fun invoke site f h hl => ?_⟩
    have hx := Command.execute_carried (ρ := id) (g := id) hvars (fun _ _ _ _ e => e)
      (fun _ _ => rfl) hl r invoke site
    rwa [Command.rename_id] at hx

theorem run_alike (hp : ∀ i ∈ p.code.toList, ∀ v ∈ i.vars, S v) (hr : S .result) (bound : Nat)
    {inputs inputs' : List Value}
    (h : ∀ v, S v → (Frame.ofInputs inputs').get v = (Frame.ofInputs inputs).get v) :
    (p.run r bound inputs).Rel Outcome.Alike (p.run r bound inputs') := by
  have hstart : (p.start inputs).Lockstep (Frame.Carried id S) (p.start inputs') := by
    refine ⟨fun v hv => ?_, rfl, rfl, rfl, rfl⟩
    rw [start, start, Frame.get_declare, Frame.get_declare]
    exact h v hv
  refine (finishWith_lockstep (matched_self hp) bound hstart).bind fun s t hst => ?_
  exact .done ⟨(hst.frame .result hr).symm, hst.cycles, hst.steps⟩

end Routine

/-! ## Inputs in a frame -/

namespace Frame

theorem get_ofInputs_of_not_isInput {v : Variable} (hv : v.isInput = false) (inputs : List Value) :
    (ofInputs inputs).get v = (ofInputs []).get v := by
  cases v with
  | constant k => rfl
  | input n => cases hv
  | _ =>
    rw [get_ofInputs_of_ne rfl, get_ofInputs_of_ne rfl] <;>
      exact fun _ _ => Variable.noConfusion

/-- Later inputs do not touch a variable that none of them is bound to. -/
theorem get_ofInputs_append {v : Variable} {inputs more : List Value}
    (h : ∀ k, k < more.length → v ≠ .ofInputIndex (inputs.length + k)) :
    (ofInputs (inputs ++ more)).get v = (ofInputs inputs).get v := by
  cases hc : v.isConstant with
  | true => cases v <;> first | rfl | cases hc
  | false =>
    rw [get_of_not_constant _ hc, get_of_not_constant _ hc, ofInputs, List.zipIdx_append,
      List.foldl_append, Nat.zero_add]
    exact congrArg (Option.getD · 0) (getElem?_foldl_insert_of_ne h _)

/-- Trailing zeros read like inputs that are not there. -/
theorem get_ofInputs_append_zeros {inputs : List Value} {n : Nat}
    (hle : inputs.length + n ≤ Variable.numberLimit) (v : Variable) :
    (ofInputs (inputs ++ List.replicate n 0)).get v = (ofInputs inputs).get v := by
  by_cases h : ∃ k, k < n ∧ v = .ofInputIndex (inputs.length + k)
  · obtain ⟨k, hk, rfl⟩ := h
    have hzero : (inputs ++ List.replicate n 0)[inputs.length + k]? = some 0 := by
      rw [List.getElem?_append_right (Nat.le_add_right _ _), Nat.add_sub_cancel_left,
        List.getElem?_replicate_of_lt hk]
    rw [get_ofInputs hzero (by simpa using hle), get_ofInputs_of_ne rfl]
    intro j hj e
    have := Variable.ofInputIndex_inj (by omega) (by omega) e
    omega
  · refine get_ofInputs_append fun k hk e => h ⟨k, ?_, e⟩
    rwa [List.length_replicate] at hk

/-- Numbers start over past their limit: what comes next takes the place of the first input. -/
theorem get_ofInputs_wrapped {inputs : List Value} (h : inputs.length = Variable.numberLimit)
    (value : Value) : (ofInputs (inputs ++ [value])).get (.input 1) = value := by
  have hfirst : Variable.input 1 = .ofInputIndex inputs.length := by rw [h]; rfl
  rw [hfirst, get_of_not_constant _ rfl, ofInputs, List.zipIdx_append, List.foldl_append,
    Nat.zero_add, List.zipIdx_singleton, List.foldl_cons, List.foldl_nil,
    Std.TreeMap.getElem?_insert_self, Option.getD_some]

end Frame

/-! ## Programs -/

/-- Blocks name no input that their instructions do not name. -/
theorem Pieces.isInput {r : Registry} {n n' : SLanguage.Names} {ps : List Piece}
    (hp : Pieces r n n' ps) {inputs : List Variable}
    (h : ∀ i ∈ ps.map (·.instruction), ∀ v ∈ i.vars, v.isInput = true → v ∈ inputs) :
    ∀ j ∈ ps.flatMap (·.block), ∀ v ∈ j.vars, v.isInput = true → v ∈ inputs := by
  intro j hj v hv hin
  obtain ⟨p, hm, hj⟩ := List.mem_flatMap.mp hj
  rcases (hp.template hm).vars j hj v hv with hv | hv | hv
  · exact h _ (List.mem_map.mpr ⟨p, hm, rfl⟩) v hv hin
  · obtain ⟨k, rfl, -⟩ := hp.draws.works v (List.mem_flatMap.mpr ⟨p, hm, hv⟩)
    cases hin
  · cases v with
    | input n => cases hv
    | _ => cases hin

namespace Program

variable {p : Program} {q q' : Request}

theorem mem_inputVariables {v : Variable} :
    v ∈ p.inputVariables ↔ v.isInput = true ∧ ∃ i ∈ p.instructions, v ∈ i.vars := by
  rw [inputVariables, Std.TreeSet.mem_toList, Std.TreeSet.mem_ofList, List.contains_iff_mem,
    List.mem_filter, List.mem_flatMap, and_comm]

/-- At every degree the program names the same inputs, or fewer. -/
theorem inputs_of_expandTo {degree : Nat} {s : Snapshot} (h : p.expandTo degree = .ok s) :
    ∀ i ∈ s.instructions, ∀ v ∈ i.vars, v.isInput = true → v ∈ p.inputVariables := by
  obtain ⟨n', h⟩ := Registry.expandTo_ok h
  refine Registry.passes_preserve
    (fun _ code => ∀ i ∈ code, ∀ v ∈ i.vars, v.isInput = true → v ∈ p.inputVariables)
    (fun _ _ _ h hp => hp.isInput h) ?_ h
  rw [Snapshot.instructions_ofCode]
  exact fun i hi v hv hin => mem_inputVariables.mpr ⟨hin, i, hi, hv⟩

/-- The run fails in this way, with every bound that is large enough. -/
def Fails (p : Program) (q : Request) (e : Fault) : Prop :=
  ∃ least, ∀ bound, least ≤ bound → p.run bound q = .failed e

theorem fails_of_run {m : Nat} {e : Fault} (h : p.run m q = .failed e) : p.Fails q e :=
  ⟨m, fun _ hle => (run_le hle q).failed h⟩

/-- Both runs go on forever, both fail in the same way, or both halt with the same result, cycles
and steps. -/
def RunsAlike (p : Program) (q q' : Request) : Prop :=
  p.Diverges q ∧ p.Diverges q' ∨ (∃ e, p.Fails q e ∧ p.Fails q' e) ∨
    ∃ o o', p.Halts q o ∧ p.Halts q' o' ∧ o.Alike o'

theorem runsAlike_of_rel (h : ∀ bound, (p.run bound q).Rel Outcome.Alike (p.run bound q')) :
    p.RunsAlike q q' := by
  by_cases hd : p.Diverges q
  · refine .inl ⟨hd, fun bound => ?_⟩
    have := h bound
    rw [hd bound] at this
    generalize p.run bound q' = y at this ⊢
    cases this
    rfl
  · obtain ⟨bound, hb⟩ := not_forall.mp hd
    have hrel := h bound
    generalize hx : p.run bound q = x at hrel hb
    generalize hy : p.run bound q' = y at hrel
    cases hrel with
    | done h => exact .inr (.inr ⟨_, _, halts_of_run hx, halts_of_run hy, h⟩)
    | failed e => exact .inr (.inl ⟨e, fails_of_run hx, fails_of_run hy⟩)
    | unfinished => exact absurd rfl hb

/-- A run that is done has the result of every run that is alike. -/
theorem RunsAlike.result_eq {m m' : Nat} {o o' : Outcome} (h : p.RunsAlike q q')
    (ho : p.run m q = .done o) (ho' : p.run m' q' = .done o') : o.result = o'.result := by
  rcases h with ⟨hd, -⟩ | ⟨e, ⟨least, hf⟩, -⟩ | ⟨x, x', hx, hx', halike⟩
  · rw [hd m] at ho
    cases ho
  · have hmax := (run_le (Nat.le_max_left m least) q).done ho
    rw [hf _ (Nat.le_max_right m least)] at hmax
    cases hmax
  · rw [hx.eq_of_run ho, hx'.eq_of_run ho', halike.result]

theorem runsAlike_of_agree {degree : Nat} {tier : Tier} {inputs inputs' : List Value}
    (h : ∀ v ∈ p.inputVariables, (Frame.ofInputs inputs).get v = (Frame.ofInputs inputs').get v) :
    p.RunsAlike ⟨inputs, degree, tier⟩ ⟨inputs', degree, tier⟩ := by
  refine runsAlike_of_rel fun bound => ?_
  have hprepare : p.prepare ⟨inputs, degree, tier⟩ = p.prepare ⟨inputs', degree, tier⟩ := rfl
  rw [run, run, ← hprepare]
  cases hq : p.prepare ⟨inputs, degree, tier⟩ with
  | error e => exact .failed e
  | ok routine =>
    obtain ⟨s, hs, -, hr⟩ := prepare_ok hq
    have hcode : routine.code.toList = s.instructions := by rw [(Routine.ofCode_ok hr).1]
    refine Routine.run_alike (S := fun v => v.isInput = true → v ∈ p.inputVariables)
      (hcode ▸ inputs_of_expandTo hs) (fun h => by cases h) bound fun v hv => ?_
    cases hin : v.isInput with
    | true => exact (h v (hv hin)).symm
    | false =>
      rw [Frame.get_ofInputs_of_not_isInput hin, Frame.get_ofInputs_of_not_isInput hin inputs]

/-- A run depends only on the inputs that the program names: inputs that read the same there run
alike at every degree and on every machine. So trailing zeros can be left out, as long as the
places of the inputs have numbers of their own, and inputs that the program does not name can be
added. -/
theorem run_reads_named_inputs (p : Program) (degree : Nat) (tier : Tier) :
    (∀ inputs inputs' : List Value,
      (∀ v ∈ p.inputVariables,
        (Frame.ofInputs inputs).get v = (Frame.ofInputs inputs').get v) →
      p.RunsAlike ⟨inputs, degree, tier⟩ ⟨inputs', degree, tier⟩) ∧
    (∀ (inputs : List Value) (n : Nat), inputs.length + n ≤ Variable.numberLimit →
      p.RunsAlike ⟨inputs ++ List.replicate n 0, degree, tier⟩ ⟨inputs, degree, tier⟩) ∧
    ∀ inputs more : List Value,
      (∀ k, k < more.length → .ofInputIndex (inputs.length + k) ∉ p.inputVariables) →
      p.RunsAlike ⟨inputs ++ more, degree, tier⟩ ⟨inputs, degree, tier⟩ := by
  refine ⟨fun inputs inputs' h => runsAlike_of_agree h,
    fun inputs n hle => runsAlike_of_agree fun v _ => Frame.get_ofInputs_append_zeros hle v,
    fun inputs more h => runsAlike_of_agree fun v hv => Frame.get_ofInputs_append fun k hk e => ?_⟩
  exact h k hk (e ▸ hv)

/-- The third input is not read, whatever it is; a fourth one that is zero is as good as none. -/
theorem run_demo_reads_named_inputs : Demo.program.inputVariables = [.input 1, .input 2] ∧
    Demo.program.RunsAlike ⟨[2, 5, 8], 3, .four⟩ ⟨[2, 5, 9, 4], 3, .four⟩ ∧
    Demo.program.RunsAlike ⟨[2, 5, 9, 0], 3, .four⟩ ⟨[2, 5, 9], 3, .four⟩ ∧
    Demo.program.RunsAlike ⟨[2, 5, 9, 0], 3, .four⟩ ⟨[2, 5], 3, .four⟩ := by
  have hvars : Demo.program.inputVariables = [.input 1, .input 2] := by decide +kernel
  obtain ⟨hagree, hzeros, hmore⟩ := run_reads_named_inputs Demo.program 3 .four
  refine ⟨hvars, hagree _ _ ?_, hzeros [2, 5, 9] 1 (by decide), hmore [2, 5] [9, 0] ?_⟩
  · rw [hvars]
    decide +kernel
  · rw [hvars]
    decide +kernel

/-- Answers with its first input. -/
def copiesInput : Program where
  name := "COPY"
  instructions := [⟨.empty, .assign .result (.input 1)⟩]

theorem run_copiesInput (inputs : List Value) : ∃ o,
    copiesInput.run 2 ⟨inputs, 0, .four⟩ = .done o ∧
      o.result = (Frame.ofInputs inputs).get (.input 1) := by
  refine ⟨_, rfl, ?_⟩
  change (Frame.set _ .result _).get .result = _
  rw [Frame.get_set _ rfl, if_pos rfl]
  exact Frame.get_declare ..

/-- The bound on trailing zeros cannot go: past the last number a zero is bound to the first
variable again. -/
theorem trailing_zero_overwrites :
    ¬ copiesInput.RunsAlike ⟨List.replicate Variable.numberLimit 1 ++ List.replicate 1 0, 0, .four⟩
      ⟨List.replicate Variable.numberLimit 1, 0, .four⟩ := by
  have hlen : (List.replicate Variable.numberLimit (1 : Value)).length = Variable.numberLimit :=
    List.length_replicate
  have hfirst : (List.replicate Variable.numberLimit (1 : Value))[0]? = some 1 :=
    List.getElem?_replicate_of_lt (by decide)
  -- the list is too long to look at: its length and its first value are all that counts
  generalize List.replicate Variable.numberLimit (1 : Value) = ones at hlen hfirst ⊢
  intro h
  obtain ⟨o, hrun, ho⟩ := run_copiesInput (ones ++ List.replicate 1 0)
  obtain ⟨o', hrun', ho'⟩ := run_copiesInput ones
  have hone : (Frame.ofInputs ones).get (.input 1) = 1 :=
    Frame.get_ofInputs (k := 0) hfirst (Nat.le_of_eq hlen)
  have hzero : (Frame.ofInputs (ones ++ List.replicate 1 0)).get (.input 1) = 0 :=
    Frame.get_ofInputs_wrapped hlen 0
  have hresult := h.result_eq hrun hrun'
  rw [ho, ho', hzero, hone] at hresult
  exact absurd hresult (by decide)

end Program

end SLanguage
