import SLanguage.BodyAnalysis

/-!
# Degree

The degree of an instruction is the number of expansion passes after which nothing synthetic is left
of it; the degree of a sequence or a function is the largest in it.
-/

namespace SLanguage

variable {σ : Type}

namespace Argument

mutual

/-- The degree of the quote that evaluates an argument, given the degree of functions. A variable is
copied, which the degree of the quote around it already counts. -/
def degree (body : String → EStateM Fault σ Nat) : Argument → EStateM Fault σ Nat
  | leaf _ => return 0
  | call name arguments => do
    let d ← body name
    return 1 + (← listDegree body (max 2 d) arguments)

/-- The largest of `inner` and the degrees of the arguments. -/
def listDegree (body : String → EStateM Fault σ Nat) (inner : Nat) :
    List Argument → EStateM Fault σ Nat
  | [] => return inner
  | a :: rest => do
    let d ← a.degree body
    listDegree body (max inner d) rest

end

end Argument

namespace Degree

def ofInstruction (callee : Site → String → EStateM Fault σ Nat) (site : Site)
    (i : Instruction) : EStateM Fault σ Nat :=
  match i.command with
  | .increase _ | .decrease _ | .neutral _ | .jumpNotZero _ _ => return 0
  | .zero _ | .goto _ => return 1
  | .assign v w => return if v = w then 1 else 2
  | .assignConstant _ _ | .jumpZero _ _ => return 2
  | .jumpEqualVariable v w _ => return if v = w then 2 else 3
  | .jumpEqualConstant _ _ _ => return 3
  | .quote _ c => c.toArgument.degree (callee site)
  | .jumpEqualCall _ c _ => return 1 + max (← c.toArgument.degree (callee site)) 3

def ofSequence (callee : Site → String → EStateM Fault σ Nat) (scope : Scope)
    (code : List Instruction) : EStateM Fault σ Nat :=
  (code.zipIdx 1).foldlM
    (fun d (i, position) => do return max d (← ofInstruction callee ⟨scope, position⟩ i))
    0

def ofBody : BodyAnalysis Nat := fun _ callee f => ofSequence callee f.scope f.body

end Degree

namespace Registry

/-- The degree of a function that is called at a site. -/
def functionDegree (r : Registry) (site : Site) (name : String) : MemoM Nat Nat :=
  r.analyse Degree.ofBody [] site name

def instructionDegree (r : Registry) (site : Site) (i : Instruction) : MemoM Nat Nat :=
  Degree.ofInstruction r.functionDegree site i

def sequenceDegree (r : Registry) (scope : Scope) (code : List Instruction) : MemoM Nat Nat :=
  Degree.ofSequence r.functionDegree scope code

end Registry

end SLanguage
