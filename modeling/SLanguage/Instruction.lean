import SLanguage.Call
import SLanguage.Label
import SLanguage.Operation

/-!
# Instructions

A command is an operation with its operands; an instruction is a command with the label that stands
before it.
-/

namespace SLanguage

inductive Command where
  | increase (v : Variable)
  | decrease (v : Variable)
  | neutral (v : Variable)
  | jumpNotZero (v : Variable) (target : Label)
  | zero (v : Variable)
  | assignConstant (v : Variable) (k : Value)
  | assign (v source : Variable)
  | goto (target : Label)
  | jumpZero (v : Variable) (target : Label)
  | jumpEqualConstant (v : Variable) (k : Value) (target : Label)
  | jumpEqualVariable (v other : Variable) (target : Label)
  | quote (v : Variable) (call : Call)
  | jumpEqualCall (v : Variable) (call : Call) (target : Label)
  deriving DecidableEq, Repr

namespace Command

def operation : Command → Operation
  | increase _ => .increase
  | decrease _ => .decrease
  | neutral _ => .neutral
  | jumpNotZero _ _ => .jumpNotZero
  | zero _ => .zero
  | assignConstant _ _ => .assignConstant
  | assign _ _ => .assign
  | goto _ => .goto
  | jumpZero _ _ => .jumpZero
  | jumpEqualConstant _ _ _ => .jumpEqualConstant
  | jumpEqualVariable _ _ _ => .jumpEqualVariable
  | quote _ _ => .quote
  | jumpEqualCall _ _ _ => .jumpEqualCall

/-- The variable the command is about; only `goto` has none. -/
def subject? : Command → Option Variable
  | increase v | decrease v | neutral v | zero v => some v
  | jumpNotZero v _ | jumpZero v _ => some v
  | assignConstant v _ | assign v _ | quote v _ => some v
  | jumpEqualConstant v _ _ | jumpEqualVariable v _ _ | jumpEqualCall v _ _ => some v
  | goto _ => none

/-- The variable the command may change; a jump changes none. -/
def written? : Command → Option Variable
  | increase v | decrease v | neutral v | zero v => some v
  | assignConstant v _ | assign v _ | quote v _ => some v
  | _ => none

/-- The second variable operand. -/
def other? : Command → Option Variable
  | assign _ w | jumpEqualVariable _ w _ => some w
  | _ => none

def target? : Command → Option Label
  | jumpNotZero _ l | goto l | jumpZero _ l => some l
  | jumpEqualConstant _ _ l | jumpEqualVariable _ _ l | jumpEqualCall _ _ l => some l
  | _ => none

def call? : Command → Option Call
  | quote _ c | jumpEqualCall _ c _ => some c
  | _ => none

/-- The variable operands, those in a call apart. -/
def operands (c : Command) : List Variable := c.subject?.toList ++ c.other?.toList

/-- Every variable the command mentions, constants in calls included. -/
def vars (c : Command) : List Variable :=
  c.operands ++ (c.call?.map Call.vars).getD []

/-- Every variable goes through `f`, constants in calls included, and every target through `g`. -/
def rename (f : Variable → Variable) (g : Label → Label) : Command → Command
  | increase v => increase (f v)
  | decrease v => decrease (f v)
  | neutral v => neutral (f v)
  | jumpNotZero v l => jumpNotZero (f v) (g l)
  | zero v => zero (f v)
  | assignConstant v k => assignConstant (f v) k
  | assign v w => assign (f v) (f w)
  | goto l => goto (g l)
  | jumpZero v l => jumpZero (f v) (g l)
  | jumpEqualConstant v k l => jumpEqualConstant (f v) k (g l)
  | jumpEqualVariable v w l => jumpEqualVariable (f v) (f w) (g l)
  | quote v c => quote (f v) (c.rename f)
  | jumpEqualCall v c l => jumpEqualCall (f v) (c.rename f) (g l)

private def setText (v : Variable) (value : String) : String := v.text ++ " <- " ++ value

private def ifText (v : Variable) (test : String) (l : Label) : String :=
  "IF " ++ v.text ++ test ++ " GOTO " ++ l.text

def text : Command → String
  | increase v => setText v (v.text ++ " + 1")
  | decrease v => setText v (v.text ++ " - 1")
  | neutral v => setText v v.text
  | jumpNotZero v l => ifText v " != 0" l
  | zero v => setText v "0"
  | assignConstant v k => setText v (Word.text k)
  | assign v w => setText v w.text
  | goto l => "GOTO " ++ l.text
  | jumpZero v l => ifText v " == 0" l
  | jumpEqualConstant v k l => ifText v (" == " ++ Word.text k) l
  | jumpEqualVariable v w l => ifText v (" == " ++ w.text) l
  | quote v c => setText v c.text
  | jumpEqualCall v c l => ifText v (" == " ++ c.text) l

end Command

structure Instruction where
  label : Label
  command : Command
  deriving DecidableEq, Repr

namespace Instruction

def operation (i : Instruction) : Operation := i.command.operation

def isBasic (i : Instruction) : Bool := i.operation.isBasic

def isSynthetic (i : Instruction) : Bool := i.operation.isSynthetic

def vars (i : Instruction) : List Variable := i.command.vars

def target? (i : Instruction) : Option Label := i.command.target?

def call? (i : Instruction) : Option Call := i.command.call?

def rename (f : Variable → Variable) (g : Label → Label) (i : Instruction) : Instruction :=
  ⟨g i.label, i.command.rename f g⟩

def text (i : Instruction) : String :=
  match i.label with
  | .empty => i.command.text
  | l => "[" ++ l.text ++ "] " ++ i.command.text

end Instruction

end SLanguage
