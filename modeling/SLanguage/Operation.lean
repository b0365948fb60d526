import SLanguage.Word

/-!
# Operations

The thirteen operations: four basic ones and nine synthetic ones, each of which expands into others.
An operation is read from its name or from its code, its place in `Operation.all`.
-/

namespace SLanguage

inductive Operation where
  | increase
  | decrease
  | neutral
  | jumpNotZero
  | zero
  | assignConstant
  | assign
  | goto
  | jumpZero
  | jumpEqualConstant
  | jumpEqualVariable
  | quote
  | jumpEqualCall
  deriving DecidableEq, Repr

/-- Why a text or a number names nothing. -/
inductive ReadError where
  | unknownName
  | unknownCode (code : Nat)
  deriving DecidableEq, Repr

def ReadError.message : ReadError → String
  | unknownName => "Matching variant not found"
  | unknownCode code =>
    "No discriminant in enum `Operation` matches the value `" ++ toString code ++ "`"

namespace Operation

/-- Every operation, in the order of codes. -/
def all : List Operation :=
  [increase, decrease, neutral, jumpNotZero, zero, assignConstant, assign, goto, jumpZero,
    jumpEqualConstant, jumpEqualVariable, quote, jumpEqualCall]

def name : Operation → String
  | increase => "INCREASE"
  | decrease => "DECREASE"
  | neutral => "NEUTRAL"
  | jumpNotZero => "JUMP_NOT_ZERO"
  | zero => "ZERO_VARIABLE"
  | assignConstant => "CONSTANT_ASSIGNMENT"
  | assign => "ASSIGNMENT"
  | goto => "GOTO_LABEL"
  | jumpZero => "JUMP_ZERO"
  | jumpEqualConstant => "JUMP_EQUAL_CONSTANT"
  | jumpEqualVariable => "JUMP_EQUAL_VARIABLE"
  | quote => "QUOTE"
  | jumpEqualCall => "JUMP_EQUAL_FUNCTION"

def code (o : Operation) : Nat := all.idxOf o

def ofName (s : String) : Except ReadError Operation :=
  match all.find? (·.name == s) with
  | some o => .ok o
  | none => .error .unknownName

def ofCode (n : Nat) : Except ReadError Operation :=
  match all[n]? with
  | some o => .ok o
  | none => .error (.unknownCode n)

theorem ofCode_code (o : Operation) : ofCode o.code = .ok o := by
  cases o <;> rfl

theorem ofName_name (o : Operation) : ofName o.name = .ok o := by
  cases o <;> rfl

def isBasic : Operation → Bool
  | increase | decrease | neutral | jumpNotZero => true
  | _ => false

def isSynthetic (o : Operation) : Bool := !o.isBasic

/-- The operation carries a call. -/
def isCall : Operation → Bool
  | quote | jumpEqualCall => true
  | _ => false

/-- The letter of the class in listings. -/
def classText (o : Operation) : String := if o.isBasic then "B" else "S"

/-- The cost of the operation itself; what a call costs comes on top. -/
def cycles : Operation → Cycles
  | neutral => 0
  | increase | decrease | zero | goto => 1
  | jumpNotZero | assignConstant | jumpZero | jumpEqualConstant | jumpEqualVariable => 2
  | assign => 4
  | quote => 5
  | jumpEqualCall => 6

end Operation

end SLanguage
