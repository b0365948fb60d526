import SLanguage.BodyAnalysis

/-!
# Static cost

An instruction costs the cycles of its operation. A call adds the cost of its nested calls, each
at the price of a quote, and of every instruction of the function's body. Sums stop at the largest
word.
-/

namespace SLanguage

variable {σ : Type}

namespace Argument

mutual

/-- The cost of evaluating an argument, given the cost of bodies. -/
def cost (body : String → EStateM Fault σ Cycles) : Argument → EStateM Fault σ Cycles
  | leaf _ => return 0
  | call name arguments => do
    let total ← listCost body Operation.quote.cycles arguments
    return Word.add total (← body name)

/-- The cost of evaluating arguments from left to right, on top of `total`. -/
def listCost (body : String → EStateM Fault σ Cycles) (total : Cycles) :
    List Argument → EStateM Fault σ Cycles
  | [] => return total
  | a :: rest => do
    let c ← a.cost body
    listCost body (Word.add total c) rest

end

end Argument

namespace Cost

def ofCall (body : String → EStateM Fault σ Cycles) (overhead : Cycles) (c : Call) :
    EStateM Fault σ Cycles := do
  let total ← Argument.listCost body overhead c.arguments
  return Word.add total (← body c.name)

def ofInstruction (callee : Site → String → EStateM Fault σ Cycles) (site : Site)
    (i : Instruction) : EStateM Fault σ Cycles :=
  match i.call? with
  | some c => ofCall (callee site) i.operation.cycles c
  | none => return i.operation.cycles

def ofBody : BodyAnalysis Cycles := fun _ callee f =>
  (f.body.zipIdx 1).foldlM
    (fun total (i, position) => do
      return Word.add total (← ofInstruction callee ⟨f.scope, position⟩ i))
    0

/-- The cost of each instruction of a sequence. -/
def ofSequence (callee : Site → String → EStateM Fault σ Cycles) (scope : Scope)
    (code : List Instruction) : EStateM Fault σ (List Cycles) :=
  (code.zipIdx 1).mapM fun (i, position) => ofInstruction callee ⟨scope, position⟩ i

end Cost

namespace Registry

/-- The cost of all instructions in the body of a function that is called at a site. -/
def bodyCost (r : Registry) (site : Site) (name : String) : MemoM Cycles Cycles :=
  r.analyse Cost.ofBody [] site name

def instructionCost (r : Registry) (site : Site) (i : Instruction) : MemoM Cycles Cycles :=
  Cost.ofInstruction r.bodyCost site i

def sequenceCosts (r : Registry) (scope : Scope) (code : List Instruction) :
    MemoM Cycles (List Cycles) :=
  Cost.ofSequence r.bodyCost scope code

end Registry

end SLanguage
