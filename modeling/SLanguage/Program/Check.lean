import SLanguage.Program

/-!
# Checking a program

`Program.issues` lists what is wrong with a program: in its own sequence first, then in the bodies
of its functions in the order of names, and last a chain of calls that comes back to where it
started. Within a sequence the labels that stand twice come first, then the faults of each
instruction.
-/

namespace SLanguage

namespace Check

/-- Labels that stand before more than one instruction. `seen` holds the labels so far, each with
the position where it stood first. -/
def duplicateLabels (scope : Scope) (seen : List (Label × Nat)) :
    List (Instruction × Nat) → List Fault
  | [] => []
  | (i, position) :: rest =>
    if i.label.isNamed then
      match seen.lookup i.label with
      | some first =>
        .duplicateLabel i.label scope first position :: duplicateLabels scope seen rest
      | none => duplicateLabels scope ((i.label, position) :: seen) rest
    else duplicateLabels scope seen rest

/-- A jump must go to the exit or to a label that stands in the sequence. -/
def targetIssues (attached : List Label) (site : Site) (i : Instruction) : List Fault :=
  match i.target? with
  | some l => if l = .exit || l ∈ attached then [] else [.unresolvedLabel l site]
  | none => []

/-- An operand outside a call must be a well-formed variable and no constant. -/
def operandIssues (site : Site) (i : Instruction) : List Fault :=
  (i.command.operands.filter fun v => v.isConstant || !v.isWellFormed).map (.invalidOperand · site)

/-- The function that an argument calls, if it is unknown and not reported yet. -/
def unknownCallee? (r : Registry) (reported : List String) : Argument → Option String
  | .leaf _ => none
  | .call name _ => if r.contains name || name ∈ reported then none else some name

mutual

/-- What is wrong inside an argument. -/
def argumentIssues (r : Registry) (site : Site) : Argument → List Fault
  | .leaf v => if v.isWellFormed then [] else [.malformedArgument (.notAVariable v) site]
  | .call _ arguments => listIssues r site [] arguments

/-- What is wrong with the arguments of one call. An unknown function is reported once. -/
def listIssues (r : Registry) (site : Site) (reported : List String) : List Argument → List Fault
  | [] => []
  | a :: rest =>
    match unknownCallee? r reported a with
    | some name =>
      .malformedArgument (.unknownFunction name) site ::
        (argumentIssues r site a ++ listIssues r site (name :: reported) rest)
    | none => argumentIssues r site a ++ listIssues r site reported rest

end

def callIssues (r : Registry) (site : Site) (i : Instruction) : List Fault :=
  match i.call? with
  | some c =>
    (if r.contains c.name then [] else [.unknownFunction c.name site]) ++
      listIssues r site [] c.arguments
  | none => []

def instructionIssues (r : Registry) (attached : List Label) (site : Site) (i : Instruction) :
    List Fault :=
  targetIssues attached site i ++ operandIssues site i ++ callIssues r site i

def sequenceIssues (r : Registry) (scope : Scope) (code : List Instruction) : List Fault :=
  let attached := (code.map (·.label)).filter (·.isNamed)
  duplicateLabels scope [] (code.zipIdx 1) ++
    (code.zipIdx 1).flatMap fun (i, position) => instructionIssues r attached ⟨scope, position⟩ i

def recursionIssues (r : Registry) : List Fault :=
  match r.findRecursion with
  | some chain => [.recursiveFunction chain]
  | none => []

end Check

/-- Why a program is refused. -/
structure LoadError where
  program : String
  issues : List Fault
  deriving DecidableEq, Repr

def LoadError.message (e : LoadError) : String :=
  "program `" ++ e.program ++ "` failed validation with " ++ toString e.issues.length ++ " issue(s)"

namespace Program

def issues (p : Program) : List Fault :=
  Check.sequenceIssues p.functions .program p.instructions ++
    p.functions.functions.flatMap (fun f => Check.sequenceIssues p.functions f.scope f.body) ++
    Check.recursionIssues p.functions

def isValid (p : Program) : Bool := p.issues.isEmpty

/-- The issues, one a line. -/
def issuesText (p : Program) : String :=
  match p.issues with
  | [] => "valid"
  | issues => String.join (issues.map (·.message ++ "\n"))

/-- The program itself, if nothing is wrong with it. -/
def load (p : Program) : Except LoadError Program :=
  if p.isValid then .ok p else .error ⟨p.name, p.issues⟩

end Program

end SLanguage
