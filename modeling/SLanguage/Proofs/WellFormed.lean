import SLanguage.Program.Check
import SLanguage.Proofs.CallGraph

/-!
# What a check without issues means

`WellFormed r code` says of a sequence, without the lists of issues, what the check looks for: no
named label stands twice, every jump has somewhere to go, operands are proper variables, and every
function that is called is registered. A sequence has no issues exactly if it is well formed
(`sequenceIssues_eq_nil_iff`); a program, if its sequences are and its call graph has no cycle.
-/

namespace SLanguage

/-- The named labels of a sequence. -/
def attached (code : List Instruction) : List Label :=
  (code.map (·.label)).filter (·.isNamed)

theorem mem_attached {code : List Instruction} {l : Label} :
    l ∈ attached code ↔ l.isNamed = true ∧ ∃ i ∈ code, i.label = l := by
  simp [attached, and_comm]

/-- A jump of the sequence goes to this label, which stands nowhere in it. -/
structure Dangling (code : List Instruction) (t : Label) : Prop where
  target : ∃ i ∈ code, i.target? = some t
  ne_exit : t ≠ .exit
  not_mem : t ∉ attached code

/-- What an instruction must satisfy on its own. -/
structure Instruction.Fits (r : Registry) (i : Instruction) : Prop where
  writable : ∀ v ∈ i.command.operands, v.isConstant = false
  proper : ∀ v ∈ i.vars, v.isWellFormed = true
  known : ∀ n ∈ i.callNames, r.contains n = true

structure WellFormed (r : Registry) (code : List Instruction) : Prop where
  unique : (attached code).Nodup
  targets : ∀ i ∈ code, ∀ l, i.target? = some l → l = .exit ∨ l ∈ attached code
  fits : ∀ i ∈ code, i.Fits r

theorem WellFormed.not_dangling {r : Registry} {code : List Instruction} (h : WellFormed r code)
    {t : Label} : ¬ Dangling code t := by
  rintro ⟨⟨i, hi, ht⟩, hx, hm⟩
  exact (h.targets i hi t ht).elim hx hm

/-! ## No issues, rule by rule -/

namespace Check

variable {r : Registry} {scope : Scope} {site : Site}

theorem duplicateLabels_eq_nil_iff {seen : List (Label × Nat)} {xs : List (Instruction × Nat)} :
    duplicateLabels scope seen xs = [] ↔ (attached (xs.map (·.1))).Nodup ∧
      ∀ l ∈ attached (xs.map (·.1)), seen.lookup l = none := by
  induction xs generalizing seen with
  | nil => simp [duplicateLabels, attached]
  | cons x rest ih =>
    obtain ⟨i, position⟩ := x
    rw [duplicateLabels]
    split
    · next hn =>
      have e : attached (((i, position) :: rest).map (·.1)) =
          i.label :: attached (rest.map (·.1)) := by
        simp [attached, hn]
      rw [e, List.nodup_cons]
      have skip : ∀ {l : Label}, l ≠ i.label →
          ((i.label, position) :: seen).lookup l = seen.lookup l := fun h => by
        rw [List.lookup_cons, beq_false_of_ne h]
      split
      · next hl =>
        refine iff_of_false (by simp) fun h => ?_
        rw [h.2 _ (List.mem_cons_self ..)] at hl; cases hl
      · next hl =>
        rw [ih]
        constructor
        · rintro ⟨hnd, hs⟩
          have hne : i.label ∉ attached (rest.map (·.1)) := fun hm => by simpa using hs _ hm
          refine ⟨⟨hne, hnd⟩, fun l hm => ?_⟩
          rcases List.mem_cons.mp hm with rfl | hm
          · exact hl
          · rw [← skip fun e => hne (e ▸ hm)]; exact hs l hm
        · rintro ⟨⟨hne, hnd⟩, hs⟩
          refine ⟨hnd, fun l hm => ?_⟩
          rw [skip fun e => hne (e ▸ hm)]; exact hs l (List.mem_cons_of_mem _ hm)
    · next hn =>
      have e : attached (((i, position) :: rest).map (·.1)) = attached (rest.map (·.1)) := by
        simp [attached, hn]
      rw [ih, e]

theorem targetIssues_eq_nil_iff {labels : List Label} {i : Instruction} :
    targetIssues labels site i = [] ↔
      ∀ l, i.target? = some l → l = .exit ∨ l ∈ labels := by
  unfold targetIssues
  cases i.target? with
  | none => simp
  | some l => by_cases h : l = .exit ∨ l ∈ labels <;> simp_all

theorem operandIssues_eq_nil_iff {i : Instruction} :
    operandIssues site i = [] ↔
      ∀ v ∈ i.command.operands, v.isConstant = false ∧ v.isWellFormed = true := by
  simp only [operandIssues, List.map_eq_nil_iff, List.filter_eq_nil_iff, Bool.or_eq_true,
    Bool.not_eq_true', not_or, Bool.not_eq_true, Bool.not_eq_false]

theorem listIssues_eq_nil_iff_of {as : List Argument}
    (h : ∀ a ∈ as, argumentIssues r site a = [] ↔
      (∀ n ∈ a.names.tail, r.contains n = true) ∧ ∀ v ∈ a.vars, v.isWellFormed = true) :
    listIssues r site [] as = [] ↔
      (∀ n ∈ Argument.listNames as, r.contains n = true) ∧
        ∀ v ∈ Argument.listVars as, v.isWellFormed = true := by
  induction as with
  | nil => simp [listIssues, Argument.listNames, Argument.listVars]
  | cons a rest ih =>
    have ha := h a (by simp)
    have ih := ih fun b hb => h b (by simp [hb])
    rw [listIssues, Argument.listNames, Argument.listVars]
    simp only [List.forall_mem_append]
    cases a with
    | leaf v =>
      simp only [unknownCallee?, List.append_eq_nil_iff, ha, ih, Argument.names, List.tail_nil]
      simp only [List.not_mem_nil, false_implies, implies_true, true_and]
      exact and_left_comm
    | call name arguments =>
      simp only [Argument.names, List.tail_cons] at ha
      cases hn : r.contains name with
      | false => simp [unknownCallee?, hn, Argument.names]
      | true =>
        simp only [unknownCallee?, hn, Bool.true_or, if_true, List.append_eq_nil_iff, ha, ih,
          Argument.names, List.forall_mem_cons, true_and]
        exact and_and_and_comm

theorem argumentIssues_eq_nil_iff (a : Argument) :
    argumentIssues r site a = [] ↔
      (∀ n ∈ a.names.tail, r.contains n = true) ∧ ∀ v ∈ a.vars, v.isWellFormed = true := by
  induction a with
  | leaf v => simp [argumentIssues, Argument.names, Argument.vars]
  | call name arguments ih =>
    rw [argumentIssues, Argument.names, Argument.vars, List.tail_cons]
    exact listIssues_eq_nil_iff_of ih

theorem callIssues_eq_nil_iff {i : Instruction} :
    callIssues r site i = [] ↔ (∀ n ∈ i.callNames, r.contains n = true) ∧
      ∀ c, i.call? = some c → ∀ v ∈ c.vars, v.isWellFormed = true := by
  unfold callIssues Instruction.callNames
  cases i.call? with
  | none => simp
  | some c =>
    have hl := @listIssues_eq_nil_iff_of r site c.arguments
      fun a _ => argumentIssues_eq_nil_iff a
    have e : (some c |>.map Call.names).getD [] =
        c.name :: Argument.listNames c.arguments := rfl
    rw [List.append_eq_nil_iff, hl, e, List.forall_mem_cons]
    simp [Call.vars, and_assoc]

theorem instructionIssues_eq_nil_iff {labels : List Label} {i : Instruction} :
    instructionIssues r labels site i = [] ↔
      (∀ l, i.target? = some l → l = .exit ∨ l ∈ labels) ∧ i.Fits r := by
  rw [instructionIssues, List.append_eq_nil_iff, List.append_eq_nil_iff, targetIssues_eq_nil_iff,
    operandIssues_eq_nil_iff, callIssues_eq_nil_iff, and_assoc]
  refine and_congr_right fun _ => ⟨?_, ?_⟩
  · rintro ⟨ho, hn, hv⟩
    refine ⟨fun v hv => (ho v hv).1, fun v hm => ?_, hn⟩
    rcases List.mem_append.mp hm with hm | hm
    · exact (ho v hm).2
    · cases hc : i.call? with
      | none => simp [Instruction.call?] at hc; simp [hc] at hm
      | some c => exact hv c hc v (by simp [Instruction.call?] at hc; simpa [hc] using hm)
  · rintro ⟨hw, hp, hn⟩
    refine ⟨fun v hv => ⟨hw v hv, hp v (List.mem_append.mpr (.inl hv))⟩, hn, fun c hc v hv => ?_⟩
    refine hp v (List.mem_append.mpr (.inr ?_))
    simp [Instruction.call?] at hc
    simpa [hc] using hv

theorem sequenceIssues_eq_nil_iff {code : List Instruction} :
    sequenceIssues r scope code = [] ↔ WellFormed r code := by
  have hd : duplicateLabels scope [] (code.zipIdx 1) = [] ↔ (attached code).Nodup := by
    rw [duplicateLabels_eq_nil_iff, List.zipIdx_map_fst]; simp
  have hi : ((code.zipIdx 1).flatMap fun x =>
      instructionIssues r (attached code) ⟨scope, x.2⟩ x.1) = [] ↔
      ∀ i ∈ code, (∀ l, i.target? = some l → l = .exit ∨ l ∈ attached code) ∧ i.Fits r := by
    rw [List.flatMap_eq_nil_iff]
    simp only [instructionIssues_eq_nil_iff]
    constructor
    · intro h i hi
      obtain ⟨k, hk⟩ := List.getElem?_of_mem hi
      exact h (i, 1 + k) (List.mk_add_mem_zipIdx_iff_getElem?.mpr hk)
    · exact fun h x hx => h x.1 (List.fst_mem_of_mem_zipIdx hx)
  rw [sequenceIssues, List.append_eq_nil_iff]
  refine (and_congr hd hi).trans ⟨fun ⟨hu, h⟩ => ⟨hu, fun i hi => (h i hi).1,
    fun i hi => (h i hi).2⟩, fun h => ⟨h.unique, fun i hi => ⟨h.targets i hi, h.fits i hi⟩⟩⟩

end Check

/-! ## Programs -/

theorem Registry.mem_functions_iff {r : Registry} {f : Function} :
    f ∈ r.functions ↔ r.get? f.name = some f := by
  rw [functions, List.mem_map]
  constructor
  · rintro ⟨⟨name, g⟩, hm, rfl⟩
    have hg : r.get? name = some g := Std.TreeMap.mem_toList_iff_getElem?_eq_some.mp hm
    rw [r.name_eq name g hg]; exact hg
  · exact fun h => ⟨(f.name, f), Std.TreeMap.mem_toList_iff_getElem?_eq_some.mpr h, rfl⟩

namespace Program

/-- A program without issues. -/
structure WellFormed (p : Program) : Prop where
  main : SLanguage.WellFormed p.functions p.instructions
  bodies : ∀ f ∈ p.functions.functions, SLanguage.WellFormed p.functions f.body
  acyclic : p.functions.findRecursion = none

theorem isValid_iff {p : Program} : p.isValid = true ↔ p.WellFormed := by
  have hr : Check.recursionIssues p.functions = [] ↔ p.functions.findRecursion = none := by
    unfold Check.recursionIssues
    cases p.functions.findRecursion <;> simp
  rw [isValid, List.isEmpty_iff, issues, List.append_eq_nil_iff, List.append_eq_nil_iff,
    List.flatMap_eq_nil_iff, Check.sequenceIssues_eq_nil_iff, hr]
  simp only [Check.sequenceIssues_eq_nil_iff]
  exact ⟨fun ⟨⟨h1, h2⟩, h3⟩ => ⟨h1, h2, h3⟩, fun h => ⟨⟨h.main, h.bodies⟩, h.acyclic⟩⟩

theorem WellFormed.body {p : Program} (h : p.WellFormed) {name : String} {f : Function}
    (hf : p.functions.get? name = some f) : SLanguage.WellFormed p.functions f.body :=
  h.bodies f (Registry.mem_functions_iff.mpr (by rw [Registry.name_of_get? hf]; exact hf))

/-- In a program without issues everything that is registered is grounded. -/
theorem WellFormed.grounded {p : Program} (h : p.WellFormed) {name : String}
    (hn : p.functions.contains name = true) : p.functions.Grounded name := by
  refine Registry.grounded_of_wellFounded (Registry.calls_wellFounded h.acyclic) ?_ hn
  rintro a b ⟨f, hf, hb⟩
  obtain ⟨i, hi, hb⟩ := mem_calleesOf.mp hb
  exact ((h.body hf).fits i hi).known b hb

end Program

end SLanguage
