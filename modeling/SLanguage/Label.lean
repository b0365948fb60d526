/-!
# Labels

A label stands before an instruction or names the target of a jump. `exit` is the target that ends
the run; a label named `EXIT` prints alike and is another label.
-/

namespace SLanguage

inductive Label where
  | empty
  | exit
  | named (name : String)
  deriving DecidableEq, Repr, Inhabited

namespace Label

def text : Label → String
  | empty => ""
  | exit => "EXIT"
  | named s => s

def isNamed : Label → Bool
  | named _ => true
  | _ => false

/-- The label `L1`, `L2`, … of a number. -/
def numbered (n : Nat) : Label := named ("L" ++ toString n)

/-- Numbers of labels are below `2 ^ 64`. -/
def numberLimit : Nat := 18446744073709551616

/-- The number of a label that reads `L` and decimal digits, leading zeros included. A number past
64 bits does not count. -/
def number? : Label → Option Nat
  | named s =>
    match s.toList with
    | 'L' :: d :: ds =>
      let digits := d :: ds
      let n := Nat.ofDigitChars 10 digits 0
      if digits.all Char.isDigit && n < numberLimit then some n else none
    | _ => none
  | _ => none

end Label

end SLanguage
