/-!
# Escape sequences

A colour code in a text runs from an escape character and `[` to the next `m`. All of it but the
escape character itself is hidden; a code that is never closed hides the rest of the text.
-/

namespace SLanguage.Text

/-- What stands before the next character: text, an escape character, or a colour code begun. -/
inductive EscapeState where
  | text
  | escape
  | code
  deriving DecidableEq, Repr

/-- The number of hidden characters, read on from a state. -/
def hiddenFrom : EscapeState → List Char → Nat
  | _, [] => 0
  | .text, c :: rest => hiddenFrom (if c = '\x1b' then .escape else .text) rest
  | .escape, c :: rest => if c = '[' then 1 + hiddenFrom .code rest else hiddenFrom .text rest
  | .code, c :: rest => 1 + hiddenFrom (if c = 'm' then .text else .code) rest

def hidden (cs : List Char) : Nat := hiddenFrom .text cs

end SLanguage.Text
