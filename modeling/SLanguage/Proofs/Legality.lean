import SLanguage.Proofs.Occurrence
import SLanguage.Proofs.Recursion

/-!
# The check accepts exactly the legal programs

`Legal r code` and `Program.Legal` state the rules of the language, about positions in a sequence,
occurrences in a call tree and chains of calls; they mention no list that the check keeps while it
collects issues. The check finds nothing exactly if the rules hold (`issues_eq_nil_iff_legal`). In
particular nothing hides an issue: not the rule that an unknown function is reported once in each
list of arguments, not the labels that are no names, and not the depth of a tree.
-/

namespace SLanguage

open Relation

variable {r : Registry} {code : List Instruction}

/-- The body of the function `a` invokes `b`. -/
def Registry.Invokes (r : Registry) (a b : String) : Prop :=
  ∃ f, r.get? a = some f ∧ ∃ i ∈ f.body, i.Invokes b

/-- The rules for one sequence. -/
structure Legal (r : Registry) (code : List Instruction) : Prop where
  /-- No name is the label of two instructions. -/
  labels : ∀ (j k : Nat) (i i' : Instruction) (name : String), code[j]? = some i →
    code[k]? = some i' → i.label = .named name → i'.label = .named name → j = k
  /-- A jump goes to the exit or to a name that is a label of the same sequence. -/
  targets : ∀ i ∈ code, ∀ l, i.target? = some l →
    l = .exit ∨ ∃ name, l = .named name ∧ ∃ i' ∈ code, i'.label = .named name
  operands : ∀ i ∈ code, ∀ v, i.OperatesOn v →
    v.isConstant = false ∧ v ≠ .input 0 ∧ v ≠ .work 0
  calls : ∀ i ∈ code, ∀ name, i.Invokes name → ∃ f, r.get? name = some f
  leaves : ∀ i ∈ code, ∀ v, i.Passes v → v ≠ .input 0 ∧ v ≠ .work 0

/-- The rules for a program. -/
structure Program.Legal (p : Program) : Prop where
  main : SLanguage.Legal p.functions p.instructions
  bodies : ∀ name f, p.functions.get? name = some f → SLanguage.Legal p.functions f.body
  /-- No function comes back to itself, whether or not the program calls it. -/
  acyclic : ∀ name, ¬ TransGen p.functions.Invokes name name

/-! ## One sequence -/

/-- Labels stand once exactly if the list of names has no repetition. -/
theorem nodup_attached_iff : (attached code).Nodup ↔
    ∀ (j k : Nat) (i i' : Instruction) (name : String), code[j]? = some i →
      code[k]? = some i' → i.label = .named name → i'.label = .named name → j = k := by
  rw [attached, List.Nodup, List.pairwise_filter, List.pairwise_map, List.pairwise_iff_getElem]
  constructor
  · intro h
    -- two positions with one name would be an ordered pair that the list excludes
    have lt : ∀ (j k : Nat) (i i' : Instruction) (name : String), code[j]? = some i →
        code[k]? = some i' → i.label = .named name → i'.label = .named name → ¬ j < k := by
      intro j k i i' name hj hk hi hi' hlt
      obtain ⟨hjl, rfl⟩ := List.getElem?_eq_some_iff.mp hj
      obtain ⟨hkl, rfl⟩ := List.getElem?_eq_some_iff.mp hk
      exact h j k hjl hkl hlt (by rw [hi]; rfl) (by rw [hi']; rfl) (hi.trans hi'.symm)
    intro j k i i' name hj hk hi hi'
    exact Nat.le_antisymm (Nat.le_of_not_lt (lt k j i' i name hk hj hi' hi))
      (Nat.le_of_not_lt (lt j k i i' name hj hk hi hi'))
  · intro h j k hj hk hlt hn _ he
    obtain ⟨name, hname⟩ : ∃ name, code[j].label = .named name := by
      cases hl : code[j].label with
      | named name => exact ⟨name, rfl⟩
      | _ => rw [hl] at hn; cases hn
    have := h j k _ _ name (List.getElem?_eq_getElem hj) (List.getElem?_eq_getElem hk) hname
      (he ▸ hname)
    omega

theorem mem_attached_iff {l : Label} :
    l ∈ attached code ↔ ∃ name, l = .named name ∧ ∃ i ∈ code, i.label = .named name := by
  rw [mem_attached]
  constructor
  · rintro ⟨hn, i, hi, rfl⟩
    cases hl : i.label with
    | named name => exact ⟨name, rfl, i, hi, hl⟩
    | _ => rw [hl] at hn; cases hn
  · rintro ⟨name, rfl, i, hi, hl⟩
    exact ⟨rfl, i, hi, hl⟩

theorem Instruction.fits_iff {i : Instruction} : i.Fits r ↔
    (∀ v, i.OperatesOn v → v.isConstant = false ∧ v ≠ .input 0 ∧ v ≠ .work 0) ∧
    (∀ name, i.Invokes name → ∃ f, r.get? name = some f) ∧
    ∀ v, i.Passes v → v ≠ .input 0 ∧ v ≠ .work 0 := by
  have known : ∀ name, r.contains name = true ↔ ∃ f, r.get? name = some f := fun name =>
    Option.isSome_iff_exists
  constructor
  · rintro ⟨hw, hp, hk⟩
    have proper : ∀ v, i.Mentions v → v ≠ .input 0 ∧ v ≠ .work 0 := fun v hv =>
      Variable.isWellFormed_iff.mp (hp v (mem_vars_iff.mpr hv))
    refine ⟨fun v hv => ⟨hw v (mem_operands_iff.mpr hv), proper v (.inl hv)⟩, fun name hn => ?_,
      fun v hv => proper v (.inr hv)⟩
    exact (known name).mp (hk name (mem_callNames_iff.mpr hn))
  · rintro ⟨ho, hc, hl⟩
    refine ⟨fun v hv => (ho v (mem_operands_iff.mp hv)).1, fun v hv => ?_, fun name hn => ?_⟩
    · rw [Variable.isWellFormed_iff]
      rcases mem_vars_iff.mp hv with hv | hv
      · exact (ho v hv).2
      · exact hl v hv
    · exact (known name).mpr (hc name (mem_callNames_iff.mp hn))

theorem wellFormed_iff_legal : WellFormed r code ↔ Legal r code := by
  constructor
  · intro h
    have fits := fun i hi => Instruction.fits_iff.mp (h.fits i hi)
    exact {
      labels := nodup_attached_iff.mp h.unique
      targets := fun i hi l hl => (h.targets i hi l hl).imp_right mem_attached_iff.mp
      operands := fun i hi => (fits i hi).1
      calls := fun i hi => (fits i hi).2.1
      leaves := fun i hi => (fits i hi).2.2 }
  · intro h
    exact {
      unique := nodup_attached_iff.mpr h.labels
      targets := fun i hi l hl => (h.targets i hi l hl).imp_right mem_attached_iff.mpr
      fits := fun i hi =>
        Instruction.fits_iff.mpr ⟨h.operands i hi, h.calls i hi, h.leaves i hi⟩ }

/-! ## Programs -/

theorem Registry.invokes_iff_calls {a b : String} : r.Invokes a b ↔ r.Calls a b := by
  refine exists_congr fun f => and_congr_right fun _ => ?_
  rw [Function.callees, mem_calleesOf]
  exact exists_congr fun i => and_congr_right fun _ => Instruction.mem_callNames_iff.symm

theorem Registry.findRecursion_eq_none_iff_invokes :
    r.findRecursion = none ↔ ∀ name, ¬ TransGen r.Invokes name name := by
  have e : r.Invokes = r.Calls := by
    funext a b
    exact propext r.invokes_iff_calls
  rw [e]
  exact findRecursion_eq_none_iff

namespace Program

/-- The check finds nothing in a program exactly if the program keeps all rules. -/
theorem issues_eq_nil_iff_legal (p : Program) : p.issues = [] ↔ p.Legal := by
  rw [← List.isEmpty_iff]
  refine isValid_iff.trans ⟨fun h => ?_, fun h => ?_⟩
  · refine ⟨wellFormed_iff_legal.mp h.main, fun name f hf => ?_, ?_⟩
    · exact wellFormed_iff_legal.mp (h.body hf)
    · exact Registry.findRecursion_eq_none_iff_invokes.mp h.acyclic
  · refine ⟨wellFormed_iff_legal.mpr h.main, fun f hf => ?_, ?_⟩
    · exact wellFormed_iff_legal.mpr (h.bodies f.name f (Registry.mem_functions_iff.mp hf))
    · exact Registry.findRecursion_eq_none_iff_invokes.mpr h.acyclic

/-- The second call of the unknown `F` is not reported again, but what is wrong below it is. -/
example : Program.issues {
    name := "p"
    instructions := [⟨.empty, .quote .result ⟨"G", [.call "F" [], .call "F" [.leaf (.input 0)]]⟩⟩]
    functions := .ofList [{ name := "G", body := [] }] } =
      [.malformedArgument (.unknownFunction "F") ⟨.program, 1⟩,
        .malformedArgument (.notAVariable (.input 0)) ⟨.program, 1⟩] := by
  cbv

end Program

end SLanguage
