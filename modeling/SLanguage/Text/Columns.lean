import SLanguage.Text.Escape
import SLanguage.Text.Invisible
import SLanguage.Text.Joined
import SLanguage.Text.Wide

/-!
# Columns of text

How many columns of a terminal a line of text takes: the columns of its characters, where joined
characters count once, without those that a colour code hides.
-/

namespace SLanguage.Text

/-- None for an invisible character, two for a wide one, one for any other, control characters
among them. Two signs of Khmer stand for several letters: the vowel qaa for two, beyyal for
three. -/
def charColumns (c : Char) : Nat :=
  if isInvisible c then 0
  else if c.toNat == 0x17D8 then 3
  else if isWide c || c.toNat == 0x17A4 then 2
  else 1

def listColumns : List Char → Nat
  | [] => 0
  | [a] => charColumns a
  | [a, b] => if joins a b then charColumns b else charColumns a + charColumns b
  | a :: b :: c :: rest =>
    if isBiconsonant a b c then 1 + listColumns rest
    else if joins a b then listColumns (b :: c :: rest)
    else charColumns a + listColumns (b :: c :: rest)

def columns (s : String) : Nat := listColumns s.toList - hidden s.toList

end SLanguage.Text
