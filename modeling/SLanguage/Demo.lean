import SLanguage.Call.Drawing
import SLanguage.Listing
import SLanguage.Program

/-!
# Demonstration

A program that tests whether `x1` is smaller than `x2` by composing functions, run directly and
after full expansion.
-/

namespace SLanguage.Demo

private def x1 : Variable := .input 1

private def x2 : Variable := .input 2

def negation : Function where
  name := "NOT"
  userText := some "1 - x1"
  body :=
    [⟨.empty, .jumpNotZero x1 .exit⟩,
     ⟨.empty, .increase .result⟩]

def equality : Function where
  name := "EQUAL"
  userText := some "x1 == x2"
  body :=
    [⟨.empty, .jumpEqualVariable x1 x2 (.named "L1")⟩,
     ⟨.empty, .goto .exit⟩,
     ⟨.named "L1", .increase .result⟩]

def conjunction : Function where
  name := "AND"
  userText := some "x1 * x2"
  body :=
    [⟨.empty, .jumpZero x1 .exit⟩,
     ⟨.empty, .jumpZero x2 .exit⟩,
     ⟨.empty, .increase .result⟩]

def atMost : Function where
  name := "Smaller_Equal_Than"
  userText := some "x1 <= x2"
  body :=
    [⟨.named "L1", .jumpZero x1 (.named "L2")⟩,
     ⟨.empty, .jumpZero x2 .exit⟩,
     ⟨.empty, .decrease x1⟩,
     ⟨.empty, .decrease x2⟩,
     ⟨.empty, .goto (.named "L1")⟩,
     ⟨.named "L2", .increase .result⟩]

/-- At most, and not equal. -/
def composition : Call where
  name := "AND"
  arguments :=
    [.call "Smaller_Equal_Than" [.leaf x1, .leaf x2],
     .call "NOT" [.call "EQUAL" [.leaf x2, .leaf x1]]]

def program : Program where
  name := "strictly-smaller"
  instructions := [⟨.empty, .quote .result composition⟩]
  functions := .ofList [negation, equality, conjunction, atMost]

private def outcomeText (o : Outcome) : String :=
  "y = " ++ Word.text o.result ++ " in " ++ Word.text o.cycles ++ " cycles (" ++ toString o.steps ++
    " steps)\n"

/-- The program, its call, a direct run, a run at the full degree on the smallest machine, and the
first expansion. -/
def transcript (bound : Nat) : Bounded String := do
  let inputs := [2, 5]
  let direct ← program.run bound { inputs }
  let degree ← .ofExcept program.maxDegree
  let full ← .ofExcept (program.expandTo degree)
  let expanded ← program.run bound { inputs, degree, tier := .one }
  let first ← .ofExcept (program.expandTo 1)
  return program.text ++ "\n" ++
    "Argument tree:\n" ++ composition.drawing ++ "\n\n" ++
    "Direct run:   " ++ outcomeText direct ++
    "Maximum degree " ++ toString degree ++ ", expanded to " ++ toString full.size ++
      " basic instructions\n" ++
    "Expanded run: " ++ outcomeText expanded ++
    "\n" ++ first.text ++ "\n"

end SLanguage.Demo
