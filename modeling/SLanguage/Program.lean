import SLanguage.Degree
import SLanguage.Expansion
import SLanguage.Machine.Run
import SLanguage.Text.Table

/-!
# Programs

A program is a named sequence with the functions it may call. It can be graded, priced, expanded and
run; `Program.run` expands it to a degree, makes sure that the machine has the operations it then
needs, and runs it.
-/

namespace SLanguage

structure Program where
  name : String
  instructions : List Instruction := []
  functions : Registry := .empty

/-- How to run a program. -/
structure Request where
  inputs : List Value
  degree : Nat := 0
  tier : Tier := .four
  deriving DecidableEq, Repr

namespace Program

def append (p : Program) (code : List Instruction) : Program :=
  { p with instructions := p.instructions ++ code }

/-- Adds a function, in place of the one of the same name. -/
def define (p : Program) (f : Function) : Program := { p with functions := p.functions.insert f }

/-- The inputs that the program names, in order. -/
def inputVariables (p : Program) : List Variable :=
  (Std.TreeSet.ofList ((p.instructions.flatMap (·.vars)).filter (·.isInput)) compare).toList

/-- The functions that the program calls, directly or through others. -/
def functionsUsed (p : Program) : List String := p.functions.reachableFrom p.instructions

def requiredTier (p : Program) : Tier := .requiredFor p.instructions

/-- A place of the program as a whole. -/
def site : Site := ⟨.program, 0⟩

def maxDegree (p : Program) : Except Fault Nat :=
  (p.functions.sequenceDegree .program p.instructions).fresh

def functionDegree (p : Program) (name : String) : Except Fault Nat :=
  (p.functions.functionDegree site name).fresh

def costs (p : Program) : Except Fault (List Cycles) :=
  (p.functions.sequenceCosts .program p.instructions).fresh

def expandTo (p : Program) (degree : Nat) : Except Fault Snapshot :=
  p.functions.expandTo .program p.instructions degree

/-- The body of a function, expanded on its own. -/
def expandFunctionTo (p : Program) (name : String) (degree : Nat) : Except Fault Snapshot := do
  let f ← p.functions.lookup name site
  p.functions.expandTo f.scope f.body degree

def routine (p : Program) : Except Fault Routine :=
  Routine.ofCode p.instructions .program

/-- The program at a degree, ready to run. -/
def routineAt (p : Program) (degree : Nat) : Except Fault Routine := do
  Routine.ofCode (← p.expandTo degree).instructions .program

/-- A function of the program, ready to run. -/
def functionRoutine (p : Program) (name : String) : Except Fault Routine := do
  Routine.ofFunction (← p.functions.lookup name site)

/-- The routine that a request runs. -/
def prepare (p : Program) (q : Request) : Except Fault Routine := do
  let code := (← p.expandTo q.degree).instructions
  match q.tier.firstUnsupported code with
  | some (position, operation) => throw (.unsupportedOperation operation q.tier position)
  | none => Routine.ofCode code .program

/-- Runs the program, for at most `bound` steps in it and in every body that it calls. -/
def run (p : Program) (bound : Nat) (q : Request) : Bounded Outcome := do
  let routine ← .ofExcept (p.prepare q)
  routine.run p.functions bound q.inputs

/-! ## Text -/

private def rowsText (indent : String) (code : List Instruction) : String :=
  String.join <| (code.zipIdx 1).map fun (i, position) =>
    indent ++ "#" ++ Text.pad .left 3 (toString position) ++
      " (" ++ i.operation.classText ++ ") " ++ i.text ++ "\n"

def text (p : Program) : String :=
  "Program " ++ p.name ++ "\n" ++ rowsText "" p.instructions ++
    String.join (p.functions.functions.map fun f =>
      "Function " ++ f.text ++ "\n" ++ rowsText "  " f.body)

end Program

end SLanguage
