import SLanguage.Proofs.CallGraph

/-!
# What occurs in an instruction

An argument occurs in a tree as the whole of it or further down, below any number of calls
(`Argument.Occurs`). With that the functions that an instruction invokes, the variables that it
passes to them and all those that it mentions are said without a list; the lists `callNames` and
`vars` hold exactly these.
-/

namespace SLanguage

namespace Argument

/-- The argument is the whole tree or stands below a call of it. -/
inductive Occurs (a : Argument) : Argument → Prop where
  | here : Occurs a a
  | under {name : String} {arguments : List Argument} {b : Argument} (hb : b ∈ arguments)
      (h : Occurs a b) : Occurs a (call name arguments)

theorem occurs_leaf_iff {a : Argument} {v : Variable} : a.Occurs (leaf v) ↔ a = leaf v := by
  constructor
  · intro h
    cases h
    rfl
  · rintro rfl
    exact .here

theorem occurs_call_iff {a : Argument} {name : String} {arguments : List Argument} :
    a.Occurs (call name arguments) ↔ a = call name arguments ∨ ∃ b ∈ arguments, a.Occurs b := by
  constructor
  · intro h
    cases h with
    | here => exact .inl rfl
    | under hb h => exact .inr ⟨_, hb, h⟩
  · rintro (rfl | ⟨b, hb, h⟩)
    · exact .here
    · exact .under hb h

theorem mem_names_iff_occurs {a : Argument} {n : String} :
    n ∈ a.names ↔ ∃ arguments, (call n arguments).Occurs a := by
  induction a with
  | leaf v => simp [names, occurs_leaf_iff]
  | call name arguments ih =>
    rw [names, List.mem_cons, mem_listNames]
    simp only [occurs_call_iff, call.injEq, exists_or]
    refine or_congr (by simp) ?_
    rw [exists_comm]
    refine exists_congr fun b => ?_
    rw [exists_and_left]
    exact and_congr_right fun hb => ih b hb

theorem mem_vars_iff_occurs {a : Argument} {v : Variable} :
    v ∈ a.vars ↔ (leaf v).Occurs a := by
  induction a with
  | leaf w => rw [vars, List.mem_singleton, occurs_leaf_iff, leaf.injEq]
  | call name arguments ih =>
    rw [vars, listVars_eq, List.mem_flatMap, occurs_call_iff]
    simp only [reduceCtorEq, false_or]
    exact exists_congr fun b => and_congr_right fun hb => ih b hb

end Argument

namespace Instruction

variable {i : Instruction}

/-- A call of the instruction, at any depth of its tree, is one of this function. -/
def Invokes (i : Instruction) (name : String) : Prop :=
  ∃ c, i.call? = some c ∧ ∃ arguments, (Argument.call name arguments).Occurs c.toArgument

/-- The variable is an argument in the instruction, at any depth of its tree. -/
def Passes (i : Instruction) (v : Variable) : Prop :=
  ∃ c, i.call? = some c ∧ (Argument.leaf v).Occurs c.toArgument

/-- The variable is an operand of the instruction itself. -/
def OperatesOn (i : Instruction) (v : Variable) : Prop :=
  i.command.subject? = some v ∨ i.command.other? = some v

def Mentions (i : Instruction) (v : Variable) : Prop := i.OperatesOn v ∨ i.Passes v

theorem mem_callNames_iff {name : String} : name ∈ i.callNames ↔ i.Invokes name := by
  unfold callNames Invokes
  cases i.call? with
  | none => simp
  | some c => simp [Call.names, Argument.mem_names_iff_occurs]

theorem mem_operands_iff {v : Variable} : v ∈ i.command.operands ↔ i.OperatesOn v := by
  simp [Command.operands, OperatesOn]

theorem mem_callVars_iff {v : Variable} :
    (∃ c, i.call? = some c ∧ v ∈ c.vars) ↔ i.Passes v := by
  refine exists_congr fun c => and_congr_right fun _ => ?_
  exact Argument.mem_vars_iff_occurs (a := c.toArgument)

theorem mem_vars_iff {v : Variable} : v ∈ i.vars ↔ i.Mentions v := by
  rw [vars, Command.vars, List.mem_append, mem_operands_iff, Mentions, ← mem_callVars_iff]
  refine or_congr_right ?_
  unfold call?
  cases i.command.call? <;> simp

end Instruction

theorem Variable.isWellFormed_iff {v : Variable} :
    v.isWellFormed = true ↔ v ≠ .input 0 ∧ v ≠ .work 0 := by
  cases v <;> simp [isWellFormed]

end SLanguage
