import SLanguage.Frame
import SLanguage.Machine.Bounded
import SLanguage.Registry

/-!
# Effect of a command

`Command.execute` changes the frame and says where control goes. What a call is worth comes from
`Call.value`, which evaluates the arguments from left to right in the caller's frame and then hands
the function and their values to `invoke`.
-/

namespace SLanguage

/-- Runs a function on the values of its arguments. -/
abbrev Invoke := Function → List Value → Bounded Value

namespace Argument

mutual

/-- The value of an argument of a call at a site. -/
def value (r : Registry) (invoke : Invoke) (site : Site) (frame : Frame) : Argument → Bounded Value
  | leaf v => .done (frame.get v)
  | call name arguments => do
    let values ← listValues r invoke site frame arguments
    let f ← .ofExcept (r.lookup name site)
    invoke f values

def listValues (r : Registry) (invoke : Invoke) (site : Site) (frame : Frame) :
    List Argument → Bounded (List Value)
  | [] => .done []
  | a :: rest => do
    let v ← a.value r invoke site frame
    let vs ← listValues r invoke site frame rest
    .done (v :: vs)

end

end Argument

/-- The value of a call at a site. -/
def Call.value (r : Registry) (invoke : Invoke) (site : Site) (frame : Frame) (c : Call) :
    Bounded Value :=
  c.toArgument.value r invoke site frame

/-- Where control goes after a command. -/
inductive Signal where
  | next
  | halt
  | jump (target : Label)
  deriving DecidableEq, Repr

namespace Signal

/-- A jump to the exit ends the run. -/
def goto : Label → Signal
  | .exit => halt
  | l => jump l

def gotoIf (condition : Bool) (l : Label) : Signal := if condition then goto l else next

end Signal

/-- The frame after a command and where control goes; `evaluate` gives the value of a call. -/
def Command.execute (evaluate : Call → Bounded Value) (f : Frame) :
    Command → Bounded (Frame × Signal)
  | increase v => .done (f.increment v, .next)
  | decrease v => .done (f.decrement v, .next)
  | neutral _ => .done (f, .next)
  | jumpNotZero v l => .done (f, .gotoIf (f.get v != 0) l)
  | zero v => .done (f.set v 0, .next)
  | assignConstant v k => .done (f.set v k, .next)
  | assign v w => .done (f.set v (f.get w), .next)
  | goto l => .done (f, .goto l)
  | jumpZero v l => .done (f, .gotoIf (f.get v == 0) l)
  | jumpEqualConstant v k l => .done (f, .gotoIf (f.get v == k) l)
  | jumpEqualVariable v w l => .done (f, .gotoIf (f.get v == f.get w) l)
  | quote v c => do
    let value ← evaluate c
    .done (f.set v value, .next)
  | jumpEqualCall v c l => do
    let value ← evaluate c
    .done (f, .gotoIf (f.get v == value) l)

end SLanguage
