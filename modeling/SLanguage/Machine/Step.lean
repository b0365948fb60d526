import SLanguage.Cost
import SLanguage.LabelTable
import SLanguage.Machine.Command

/-!
# Steps

A routine is a sequence made ready to run; a state is a moment of its run. `Routine.step` executes
the instruction at the pointer and charges its static cost. The cost comes first: a call into a
recursive or an unknown function has none, so it fails before anything runs. A jump to a label
that stands nowhere is charged and then fails.
-/

namespace SLanguage

structure Routine where
  code : Array Instruction
  labels : LabelTable
  scope : Scope
  deriving Repr

structure State where
  frame : Frame
  /-- The 0-based position of the next instruction. -/
  pointer : Nat
  cycles : Cycles
  steps : Nat
  halted : Bool

/-- What one step did. -/
structure Report where
  /-- The 1-based position of the instruction. -/
  position : Nat
  signal : Signal
  cycles : Cycles
  halted : Bool
  deriving DecidableEq, Repr

/-- The answer and the final variables of a run. -/
structure Outcome where
  result : Value
  vars : List (Variable × Value)
  cycles : Cycles
  steps : Nat
  deriving DecidableEq, Repr

inductive Step where
  /-- The run was over. -/
  | halted
  | took (report : Report) (next : State)
  /-- The state is the one that the run is left in. -/
  | failed (fault : Fault) (next : State)
  /-- A call did not end within its bound. -/
  | unfinished

/-- The 1-based position of the next instruction. -/
def State.position (s : State) : Nat := s.pointer + 1

def State.outcome (s : State) : Outcome where
  result := s.frame.result
  vars := s.frame.toList
  cycles := s.cycles
  steps := s.steps

namespace Routine

/-- The first write to a constant. -/
def firstFixedTarget? (code : List Instruction) (scope : Scope) : Option Fault :=
  (code.zipIdx 1).findSome? fun (i, position) => do
    let v ← i.command.written?
    if v.isWritable then none else some (.invalidOperand v ⟨scope, position⟩)

/-- Pairs the labels of a sequence with their positions and refuses writes to constants. -/
def ofCode (code : List Instruction) (scope : Scope) : Except Fault Routine := do
  let labels ← LabelTable.ofCode code scope
  match firstFixedTarget? code scope with
  | some e => throw e
  | none => return { code := code.toArray, labels, scope }

def ofFunction (f : Function) : Except Fault Routine := ofCode f.body f.scope

/-- Before the first step: the inputs in their variables, every variable of the code in the frame.
-/
def start (p : Routine) (inputs : List Value) : State where
  frame := (Frame.ofInputs inputs).declare (.result :: p.code.toList.flatMap (·.vars))
  pointer := 0
  cycles := 0
  steps := 0
  halted := p.code.isEmpty

/-- Moves the pointer of a state; past the last instruction the run is over. -/
def moveTo (p : Routine) (s : State) (pointer : Nat) : State :=
  { s with pointer, halted := p.code.size ≤ pointer }

/-- The state after a signal, unless it jumps to a label that stands nowhere. -/
def follow (p : Routine) (s : State) : Signal → Except Fault State
  | .next => .ok (p.moveTo s (s.pointer + 1))
  | .halt => .ok { s with halted := true }
  | .jump l =>
    match p.labels.position? l with
    | some pointer => .ok (p.moveTo s pointer)
    | none => .error (.unresolvedLabel l ⟨p.scope, s.position⟩)

/-- Executes an instruction that costs `cost`, and goes where it says. -/
def perform (p : Routine) (r : Registry) (invoke : Invoke) (s : State) (i : Instruction)
    (cost : Cycles) : Step :=
  match i.command.execute (Call.value r invoke ⟨p.scope, s.position⟩ s.frame) s.frame with
  | .failed e => .failed e s
  | .unfinished => .unfinished
  | .done (frame, signal) =>
    let charged := { s with frame, cycles := Word.add s.cycles cost, steps := s.steps + 1 }
    match p.follow charged signal with
    | .error e => .failed e charged
    | .ok next =>
      .took { position := s.position, signal, cycles := cost, halted := next.halted } next

/-- One step, with `invoke` for the functions that are called. -/
def stepWith (p : Routine) (r : Registry) (invoke : Invoke) (s : State) : Step :=
  if s.halted then .halted
  else
    match p.code[s.pointer]? with
    | none => .halted
    | some i =>
      match (r.instructionCost ⟨p.scope, s.position⟩ i).fresh with
      | .error e => .failed e s
      | .ok cost => p.perform r invoke s i cost

end Routine

end SLanguage
