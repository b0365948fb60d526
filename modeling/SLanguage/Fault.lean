import SLanguage.Tier

/-!
# Faults

What can be wrong with a program, found by checking, by expanding or by running it. `Fault.message`
holds all wording.
-/

namespace SLanguage

/-- The sequence a position belongs to. -/
inductive Scope where
  | program
  | function (name : String)
  deriving DecidableEq, Repr

def Scope.text : Scope → String
  | program => "program"
  | function name => "function `" ++ name ++ "`"

/-- An instruction's place: a 1-based position in a sequence. -/
structure Site where
  scope : Scope
  position : Nat
  deriving DecidableEq, Repr

def Site.text (s : Site) : String := s.scope.text ++ ", instruction " ++ toString s.position

/-- What is wrong with an argument of a call. -/
inductive ArgumentFlaw where
  | notAVariable (v : Variable)
  | unknownFunction (name : String)
  deriving DecidableEq, Repr

def ArgumentFlaw.message : ArgumentFlaw → String
  | notAVariable v => "`" ++ v.text ++ "` is not a variable"
  | unknownFunction name => "argument calls unknown function `" ++ name ++ "`"

/-- The two families of names that expansion draws from. -/
inductive NameKind where
  | workVariable
  | label
  deriving DecidableEq, Repr

def NameKind.text : NameKind → String
  | workVariable => "work variable"
  | label => "label"

inductive Fault where
  /-- A jump whose target stands before no instruction. -/
  | unresolvedLabel (label : Label) (site : Site)
  | duplicateLabel (label : Label) (scope : Scope) (first second : Nat)
  | unknownFunction (name : String) (site : Site)
  | malformedArgument (flaw : ArgumentFlaw) (site : Site)
  | invalidOperand (v : Variable) (site : Site)
  /-- The chain starts and ends with the same function. -/
  | recursiveFunction (chain : List String)
  | namesExhausted (kind : NameKind)
  | unsupportedOperation (operation : Operation) (tier : Tier) (position : Nat)
  deriving DecidableEq, Repr

def Fault.message : Fault → String
  | unresolvedLabel l site =>
    site.text ++ ": jump target `" ++ l.text ++ "` is not attached to any instruction"
  | duplicateLabel l scope first second =>
    scope.text ++ ": label `" ++ l.text ++ "` is attached to more than one instruction (rows "
      ++ toString first ++ " and " ++ toString second ++ ")"
  | unknownFunction name site => site.text ++ ": call to unknown function `" ++ name ++ "`"
  | malformedArgument flaw site =>
    site.text ++ ": malformed function argument: " ++ flaw.message
  | invalidOperand v site => site.text ++ ": `" ++ v.text ++ "` cannot be an instruction operand"
  | recursiveFunction chain =>
    "recursive function call chain: " ++ String.intercalate " -> " chain
  | namesExhausted kind =>
    "no " ++ kind.text ++ " is left above the highest one the sequence already uses"
  | unsupportedOperation o tier p =>
    "instruction " ++ toString p ++ ": " ++ o.name ++ " is not supported by architecture "
      ++ tier.text

end SLanguage
