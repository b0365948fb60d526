import SLanguage.Machine.Step

/-!
# Runs

`Routine.finish` steps until the run is over, for at most `bound` steps. `Registry.invoke` runs a
function on the values of its arguments in a frame of its own; the functions called there are
invoked one level deeper. Since every call is charged before it runs, no function is entered while
it is active, and `depth` never has to exceed the number of functions.
-/

namespace SLanguage

/-- The state in which a run ends, if it ends within `bound` steps. -/
def Routine.finishWith (p : Routine) (r : Registry) (invoke : Invoke) :
    (bound : Nat) → State → Bounded State
  | 0, _ => .unfinished
  | bound + 1, s =>
    match p.stepWith r invoke s with
    | .halted => .done s
    | .took _ next => p.finishWith r invoke bound next
    | .failed e _ => .failed e
    | .unfinished => .unfinished

/-- Runs a function, for at most `bound` steps in every body and `depth` bodies deep. -/
def Registry.invokeTo (r : Registry) (bound : Nat) : (depth : Nat) → Invoke
  | 0, _, _ => .unfinished
  | depth + 1, f, values => do
    let p ← .ofExcept (Routine.ofFunction f)
    let s ← p.finishWith r (r.invokeTo bound depth) bound (p.start values)
    .done s.frame.result

/-- Runs a function, for at most `bound` steps in every body. -/
def Registry.invoke (r : Registry) (bound : Nat) : Invoke := r.invokeTo bound r.size

/-- The value of a call, with at most `bound` steps in every body. -/
def Registry.evaluate (r : Registry) (bound : Nat) (site : Site) (frame : Frame) (c : Call) :
    Bounded Value :=
  c.value r (r.invoke bound) site frame

namespace Routine

/-- One step, in which every body that is called takes at most `bound` steps. -/
def step (p : Routine) (r : Registry) (bound : Nat) (s : State) : Step :=
  p.stepWith r (r.invoke bound) s

/-- The state in which a run ends, if neither it nor a body that it calls takes more than `bound`
steps. -/
def finish (p : Routine) (r : Registry) (bound : Nat) (s : State) : Bounded State :=
  p.finishWith r (r.invoke bound) bound s

def run (p : Routine) (r : Registry) (bound : Nat) (inputs : List Value) : Bounded Outcome := do
  let s ← p.finish r bound (p.start inputs)
  .done s.outcome

end Routine

end SLanguage
