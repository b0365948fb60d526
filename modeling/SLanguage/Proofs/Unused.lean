import SLanguage.Program
import SLanguage.Proofs.Blocks
import SLanguage.Proofs.Mirrors
import SLanguage.Proofs.Monotone

/-!
# Functions that are not used do not matter

Registries `Agree` on a set of names when they have the same function, or none, under each of them,
and the set has every name that is called from it. Whatever walks over the call graph from inside
such a set stays inside: the analyses with their chains, the splices pass by pass, and the machine.
So each of them does with one registry what it does with the other.
-/

namespace SLanguage

namespace Registry

/-- The same functions under the names in `S`, and none of them calls out of `S`. -/
structure Agree (r r' : Registry) (S : String → Prop) : Prop where
  same : ∀ n, S n → r'.get? n = r.get? n
  closed : ∀ a b, S a → r.Calls a b → S b

end Registry

/-- Only names in `S` are called in the sequence. -/
def CallsIn (S : String → Prop) (code : List Instruction) : Prop :=
  ∀ i ∈ code, ∀ n ∈ i.callNames, S n

variable {r r' : Registry} {S : String → Prop} {α : Type}

namespace Registry

theorem Agree.callsIn_body (h : r.Agree r' S) {f : Function} (hf : r.get? f.name = some f)
    (hn : S f.name) : CallsIn S f.body :=
  fun i hi n hc => h.closed f.name n hn ⟨f, hf, mem_calleesOf.mpr ⟨i, hi, hc⟩⟩

theorem Agree.lookup (h : r.Agree r' S) {name : String} (hn : S name) (site : Site) :
    r'.lookup name site = r.lookup name site := by
  rw [Registry.lookup, Registry.lookup, h.same name hn]

/-! ## Analyses -/

theorem Agree.analyse (h : r.Agree r' S) {analysis : BodyAnalysis α} (hU : analysis.Uniform)
    (chain : List String) (site : Site) {name : String} (hn : S name) :
    Mirrors (fun m m' => m = m') (r'.analyse analysis chain site name)
      (r.analyse analysis chain site name) := by
  induction hk : r.outside chain using Nat.strongRecOn generalizing chain site name with
  | ind k ih =>
  rw [Registry.analyse, Registry.analyse]
  refine mirrors_get_bind fun m m' hm => ?_
  subst hm
  cases m[name]? with
  | some a => exact mirrors_pure a
  | none =>
    by_cases hc : name ∈ chain
    · simp only [dif_pos hc]
      exact mirrors_throw _
    · simp only [dif_neg hc]
      generalize hf' : r'.get? name = f'
      rw [h.same name hn] at hf'
      subst hf'
      cases hf : r.get? name with
      | none => exact mirrors_throw _
      | some f =>
        have hlt := outside_append_lt (mem_names_of_get? hf) hc
        have hs : ∀ site g, CalledAt f.scope f.body site g → S g := fun site g hg =>
          h.closed name g hn ⟨f, hf, hg.mem_calleesOf⟩
        refine (hU _ _ _ f _ _ fun s g hg => ih _ (hk ▸ hlt) _ s (hs s g hg) rfl).bind fun a => ?_
        exact mirrors_refl _

theorem Agree.instructionCost (h : r.Agree r' S) (site : Site) {i : Instruction}
    (hi : ∀ n ∈ i.callNames, S n) : r'.instructionCost site i = r.instructionCost site i :=
  (Cost.mirrors_ofInstruction fun n hn => h.analyse Cost.ofBody_uniform [] site (hi n hn)).eq

theorem Agree.sequenceCosts (h : r.Agree r' S) (scope : Scope) {code : List Instruction}
    (hc : CallsIn S code) : r'.sequenceCosts scope code = r.sequenceCosts scope code :=
  (Cost.mirrors_ofSequence fun site n hn => by
    obtain ⟨k, i, hi, -, hn⟩ := hn
    exact h.analyse Cost.ofBody_uniform [] site (hc i (List.mem_of_getElem? hi) n hn)).eq

theorem Agree.sequenceDegree (h : r.Agree r' S) (scope : Scope) {code : List Instruction}
    (hc : CallsIn S code) : r'.sequenceDegree scope code = r.sequenceDegree scope code :=
  (Degree.mirrors_ofSequence fun site n hn => by
    obtain ⟨k, i, hi, -, hn⟩ := hn
    exact h.analyse Degree.ofBody_uniform [] site (hc i (List.mem_of_getElem? hi) n hn)).eq

/-! ## Expansion -/

theorem Agree.expand (h : r.Agree r' S) (site : Site) {i : Instruction}
    (hi : ∀ n ∈ i.callNames, S n) : r'.expand site i = r.expand site i := by
  obtain ⟨l, command⟩ := i
  cases command with
  | quote v c =>
    have hc : S c.name := hi c.name (.head _)
    simp only [Registry.expand, h.lookup hc]
  | _ => rfl

/-- A pass brings in only what the spliced bodies call. -/
theorem Agree.callsIn_pieces (h : r.Agree r' S) {n n' : Names} {ps : List Piece}
    (hp : Pieces r n n' ps) (hc : CallsIn S (ps.map (·.instruction))) :
    CallsIn S (ps.flatMap (·.block)) := by
  intro j hj name hn
  obtain ⟨p, hm, hj⟩ := List.mem_flatMap.mp hj
  have hi := hc p.instruction (List.mem_map.mpr ⟨p, hm, rfl⟩)
  rcases (hp.template hm).callNames j hj name hn with hn | ⟨a, ha, hcall⟩
  · exact hi name hn
  · exact h.closed a name (hi a ha) hcall

theorem Agree.pass (h : r.Agree r' S) (scope : Scope) {s : Snapshot}
    (hc : CallsIn S s.instructions) :
    Mirrors (fun n n' => n = n') (s.pass fun i position => r.expand ⟨scope, position⟩ i)
      (s.pass fun i position => r'.expand ⟨scope, position⟩ i) := by
  refine mirrors_foldlM (fun x hx t => ?_) _
  have hi : x.1.node.instruction ∈ s.instructions := by
    rw [← Snapshot.map_zipIdx_instructions]
    exact List.mem_map.mpr ⟨x, hx, rfl⟩
  simp only [h.expand ⟨scope, x.2⟩ (hc _ hi)]
  exact mirrors_refl _

theorem Agree.passes (h : r.Agree r' S) (scope : Scope) (degree : Nat) {s : Snapshot}
    (hc : CallsIn S s.instructions) :
    Mirrors (fun n n' => n = n') (r.passes scope degree s) (r'.passes scope degree s) := by
  induction degree generalizing s with
  | zero => exact mirrors_pure s
  | succ degree ih =>
    rw [Registry.passes, Registry.passes]
    split
    · exact mirrors_pure s
    · refine (h.pass scope hc).bind_of_answers fun s' hs' => ih ?_
      obtain ⟨n, -, n', -, hpass⟩ := hs'
      obtain ⟨ps, hps, hi, hb, -⟩ := Snapshot.pass_ok hpass
      rw [hb]
      exact h.callsIn_pieces hps (hi ▸ hc)

theorem Agree.expandTo (h : r.Agree r' S) (scope : Scope) {code : List Instruction}
    (hc : CallsIn S code) (degree : Nat) :
    r'.expandTo scope code degree = r.expandTo scope code degree := by
  have he := (h.passes scope degree (s := .ofCode code)
    (by rw [Snapshot.instructions_ofCode]; exact hc)).eq
  rw [Registry.expandTo, Registry.expandTo, he]

theorem Agree.callsIn_expandTo (h : r.Agree r' S) {scope : Scope} {code : List Instruction}
    (hc : CallsIn S code) {degree : Nat} {s : Snapshot}
    (hs : r.expandTo scope code degree = .ok s) : CallsIn S s.instructions := by
  obtain ⟨n', hp⟩ := expandTo_ok hs
  refine passes_preserve (fun _ code => CallsIn S code)
    (fun n n' ps hc hps => h.callsIn_pieces hps hc) ?_ hp
  rw [Snapshot.instructions_ofCode]
  exact hc

end Registry

/-! ## Runs -/

/-- With either registry the functions in `S` are worth the same. -/
def Invoke.AgreeIn (r : Registry) (S : String → Prop) (a b : Invoke) : Prop :=
  ∀ f, S f.name → r.get? f.name = some f → ∀ vs, a f vs = b f vs

variable {a b : Invoke}

theorem Argument.value_of_agree (h : r.Agree r' S) (hab : Invoke.AgreeIn r S a b) (site : Site)
    (frame : Frame) {x : Argument} (hx : ∀ n ∈ x.names, S n) :
    x.value r' b site frame = x.value r a site frame := by
  induction x with
  | leaf v => rfl
  | call name arguments ih =>
    have hs : ∀ x ∈ arguments, x.value r' b site frame = x.value r a site frame := fun x hm =>
      ih x hm fun n hn => hx n (.tail _ (mem_listNames.mpr ⟨x, hm, hn⟩))
    have hn : S name := hx name (.head _)
    rw [value, value, listValues_congr hs, h.lookup hn]
    refine bind_congr fun vs => ?_
    cases hf : r.get? name with
    | none => simp only [Registry.lookup, hf, Bounded.ofExcept, Bounded.failed_bind]
    | some f =>
      obtain rfl := Registry.name_of_get? hf
      simp only [Registry.lookup, hf, Bounded.ofExcept, Bounded.done_bind, hab f hn hf vs]

namespace Routine

variable {p : Routine}

theorem stepWith_of_agree (h : r.Agree r' S) (hab : Invoke.AgreeIn r S a b)
    (hc : CallsIn S p.code.toList) (s : State) : p.stepWith r' b s = p.stepWith r a s := by
  unfold stepWith
  split
  · rfl
  split
  · rfl
  next i hi =>
  have hn : ∀ n ∈ i.callNames, S n := by
    refine hc i ?_
    rw [Array.mem_toList_iff]
    exact Array.mem_of_getElem? hi
  have hcall : i.command.execute (Call.value r' b ⟨p.scope, s.position⟩ s.frame) s.frame =
      i.command.execute (Call.value r a ⟨p.scope, s.position⟩ s.frame) s.frame := by
    refine Command.execute_congr fun c hc => Argument.value_of_agree h hab _ _ fun n hm => hn n ?_
    rw [Instruction.callNames, Instruction.call?, hc]
    exact hm
  simp only [h.instructionCost _ hn, perform, hcall]

theorem finishWith_of_agree (h : r.Agree r' S) (hab : Invoke.AgreeIn r S a b)
    (hc : CallsIn S p.code.toList) (bound : Nat) (s : State) :
    p.finishWith r' b bound s = p.finishWith r a bound s := by
  induction bound generalizing s with
  | zero => rfl
  | succ bound ih =>
    rw [finishWith, finishWith, stepWith_of_agree h hab hc]
    cases p.stepWith r a s with
    | took report next => exact ih next
    | _ => rfl

end Routine

namespace Registry

theorem Agree.invokeTo (h : r.Agree r' S) (bound depth : Nat) :
    Invoke.AgreeIn r S (r.invokeTo bound depth) (r'.invokeTo bound depth) := by
  induction depth with
  | zero => exact fun f _ _ vs => rfl
  | succ depth ih =>
    intro f hn hf vs
    rw [Registry.invokeTo, Registry.invokeTo]
    cases hp : Routine.ofFunction f with
    | error e => simp only [Bounded.ofExcept, Bounded.failed_bind]
    | ok p =>
      have hc : CallsIn S p.code.toList := by
        rw [(Routine.ofCode_ok hp).1]
        exact h.callsIn_body hf hn
      simp only [Bounded.ofExcept, Bounded.done_bind, Routine.finishWith_of_agree h ih hc]

/-- The registries may differ in size, but either size is depth enough. -/
theorem Agree.invoke (h : r.Agree r' S) (bound : Nat) :
    Invoke.AgreeIn r S (r.invoke bound) (r'.invoke bound) := by
  intro f hn hf vs
  have hf' : r'.get? f.name = some f := by rw [h.same f.name hn, hf]
  have hle : (r.invokeTo bound r.size f vs).Le (r'.invokeTo bound r'.size f vs) := by
    rw [h.invokeTo bound r.size f hn hf vs]
    exact invokeTo_le_size hf' vs
  have hge : (r'.invokeTo bound r'.size f vs).Le (r.invokeTo bound r.size f vs) := by
    rw [← h.invokeTo bound r'.size f hn hf vs]
    exact invokeTo_le_size hf vs
  exact hle.antisymm hge

end Registry

theorem Routine.run_of_agree (h : r.Agree r' S) {p : Routine} (hc : CallsIn S p.code.toList)
    (bound : Nat) (inputs : List Value) : p.run r' bound inputs = p.run r bound inputs := by
  rw [run, run, finish, finish, finishWith_of_agree h (h.invoke bound) hc]

/-! ## Programs -/

namespace Program

variable {p : Program}

/-- The registry has the functions that the program uses, and no names that the program does not
know: what the program does not use may be missing or be anything. -/
structure SparesUsed (p : Program) (r : Registry) : Prop where
  used : ∀ n ∈ p.functionsUsed, r.get? n = p.functions.get? n
  known : ∀ n, r.contains n = true → p.functions.contains n = true

/-- The program uses the name if it knows it. -/
def UsesIfKnown (p : Program) (n : String) : Prop :=
  p.functions.contains n = true → n ∈ p.functionsUsed

theorem SparesUsed.agree (h : p.SparesUsed r) : p.functions.Agree r p.UsesIfKnown := by
  refine ⟨fun n hn => ?_, fun a b ha hab hb => ?_⟩
  · by_cases hk : p.functions.contains n = true
    · exact h.used n (hn hk)
    · have hr : ¬ r.contains n = true := fun hr => hk (h.known n hr)
      rw [Option.not_isSome_iff_eq_none.mp hk, Option.not_isSome_iff_eq_none.mp hr]
  · obtain ⟨f, hf, -⟩ := id hab
    exact hab.mem_reachableFrom (ha (Registry.mem_names_iff.mp (Registry.mem_names_of_get? hf))) hb

theorem callsIn_instructions (p : Program) : CallsIn p.UsesIfKnown p.instructions :=
  fun _ hi _ hn hk => Registry.callees_subset_reachableFrom hi hn hk

theorem SparesUsed.prepare (h : p.SparesUsed r) (q : Request) :
    ({ p with functions := r }).prepare q = p.prepare q := by
  have he := h.agree.expandTo .program p.callsIn_instructions q.degree
  unfold Program.prepare Program.expandTo
  rw [he]

theorem SparesUsed.run (h : p.SparesUsed r) (bound : Nat) (q : Request) :
    ({ p with functions := r }).run bound q = p.run bound q := by
  unfold Program.run
  rw [h.prepare q]
  cases hp : p.prepare q with
  | error e => simp only [Bounded.ofExcept, Bounded.failed_bind]
  | ok routine =>
    obtain ⟨s, hs, -, hcode⟩ := prepare_ok hp
    have hc : CallsIn p.UsesIfKnown routine.code.toList := by
      rw [(Routine.ofCode_ok hcode).1]
      exact h.agree.callsIn_expandTo p.callsIn_instructions hs
    simp only [Bounded.ofExcept, Bounded.done_bind, Routine.run_of_agree h.agree hc]

/-- The same degree, costs, expansions and runs, faults included. -/
structure SameAnswers (p p' : Program) : Prop where
  maxDegree : p'.maxDegree = p.maxDegree
  costs : p'.costs = p.costs
  expandTo : ∀ degree, p'.expandTo degree = p.expandTo degree
  run : ∀ bound q, p'.run bound q = p.run bound q

/-- Whatever stands in the place of the functions that a program does not use, and whether anything
does, the program gives the same answers. -/
theorem unused_functions_inert (h : p.SparesUsed r) : p.SameAnswers { p with functions := r } where
  maxDegree := by
    rw [maxDegree, maxDegree, h.agree.sequenceDegree .program p.callsIn_instructions]
  costs := by rw [costs, costs, h.agree.sequenceCosts .program p.callsIn_instructions]
  expandTo := h.agree.expandTo .program p.callsIn_instructions
  run := h.run

def countsOne : Function := { name := "F", body := [⟨.empty, .increase .result⟩] }

/-- Calls `F`; neither the recursive `G` nor `H` is used. -/
def selective : Program where
  name := "selective"
  instructions := [⟨.empty, .quote .result ⟨"F", []⟩⟩]
  functions := .ofList [
    countsOne,
    { name := "G", body := [⟨.empty, .quote .result ⟨"G", []⟩⟩] },
    { name := "H", body := [] }]

/-- `G` jumps to nowhere now, and `H` is gone. -/
def selection : Registry :=
  .ofList [countsOne, { name := "G", body := [⟨.empty, .goto (.named "A")⟩] }]

theorem functionsUsed_selective : selective.functionsUsed = ["F"] := by
  have hcallees : calleesOf selective.instructions = ["F"] := by cbv
  have hF : selective.functions.get? "F" = some countsOne := rfl
  rw [functionsUsed, Registry.reachableFrom, hcallees, Registry.reach, dif_neg List.not_mem_nil]
  split
  · next hf => rw [hF] at hf; cases hf
  · next f hf =>
    rw [hF] at hf; cases hf
    show selective.functions.reach ["F"] [] = ["F"]
    rw [Registry.reach]

theorem sparesUsed_selection : selective.SparesUsed selection := by
  refine ⟨?_, fun n hn => ?_⟩
  · rw [functionsUsed_selective]
    intro n hn
    rw [List.mem_singleton.mp hn]
    rfl
  · have hs : selection.names ⊆ selective.functions.names := by decide
    exact Registry.mem_names_iff.mp (hs (Registry.mem_names_iff.mpr hn))

theorem selective_inert_outside_used : selective.SparesUsed selection ∧
    selective.SameAnswers { selective with functions := selection } :=
  ⟨sparesUsed_selection, unused_functions_inert sparesUsed_selection⟩

end Program

end SLanguage
