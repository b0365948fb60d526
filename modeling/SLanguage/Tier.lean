import SLanguage.Instruction

/-!
# Tiers

Four tiers of machine. Each runs what the one below runs and more, at a higher price.
-/

namespace SLanguage

inductive Tier where
  | one
  | two
  | three
  | four
  deriving DecidableEq, Repr

namespace Tier

/-- Every tier, the smallest first. -/
def all : List Tier := [one, two, three, four]

instance : Inhabited Tier := ⟨four⟩

def rank : Tier → Nat
  | one => 1
  | two => 2
  | three => 3
  | four => 4

instance : LE Tier := ⟨fun a b => a.rank ≤ b.rank⟩

instance (a b : Tier) : Decidable (a ≤ b) := inferInstanceAs (Decidable (a.rank ≤ b.rank))

instance : Max Tier := maxOfLe

def text : Tier → String
  | one => "I"
  | two => "II"
  | three => "III"
  | four => "IV"

def ofName (s : String) : Except ReadError Tier :=
  match all.find? (·.text == s) with
  | some t => .ok t
  | none => .error .unknownName

/-- Credits that a run costs. -/
def credits : Tier → Word
  | one => 5
  | two => 100
  | three => 500
  | four => 1000

/-- The smallest tier that runs an operation. -/
def minimumFor : Operation → Tier
  | .increase | .decrease | .neutral | .jumpNotZero => one
  | .zero | .assignConstant | .goto => two
  | .assign | .jumpZero | .jumpEqualConstant | .jumpEqualVariable => three
  | .quote | .jumpEqualCall => four

def supports (t : Tier) (o : Operation) : Bool := minimumFor o ≤ t

/-- The smallest tier that runs a whole sequence. -/
def requiredFor (code : List Instruction) : Tier :=
  (code.map fun i => minimumFor i.operation).foldl max one

/-- The 1-based position and the operation of the first instruction that the tier does not run. -/
def firstUnsupported (t : Tier) (code : List Instruction) : Option (Nat × Operation) :=
  (code.zipIdx 1).findSome? fun (i, position) =>
    if t.supports i.operation then none else some (position, i.operation)

end Tier

end SLanguage
