import SLanguage.Expansion.Snapshot
import SLanguage.Machine.Step
import SLanguage.Text.Table

/-!
# Listings

Instructions, variables, runs and snapshots as text tables.
-/

namespace SLanguage

open Text

namespace Listing

/-- Instructions by row, with a mark at the 0-based row `mark`. -/
def instructions (code : List Instruction) (mark : Nat) : Table where
  titles := [rightCell "Row", leftCell "Instruction"]
  rows := code.zipIdx.map fun (i, row) =>
    let number := toString (row + 1)
    [rightCell (if row = mark then "* --> " ++ number else number), leftCell i.text]

def frame (f : Frame) : Table where
  titles := [rightCell "Variable", leftCell "Value"]
  rows := f.toList.map fun (v, value) => [rightCell (v.text ++ " ="), leftCell (Word.text value)]

/-- Instructions and variables side by side. -/
def machine (heading : String) (code : List Instruction) (mark : Nat) (f : Frame) : Table where
  titles := [leftCell heading, leftCell "Variables"]
  rows := [[leftCell (instructions code mark).text, leftCell (frame f).text]]

/-- The lines of a snapshot, each with the instructions it descends from. -/
def lineage (s : Snapshot) : Table where
  titles := [rightCell "#", leftCell "", leftCell "Label", leftCell "Instruction",
    leftCell "Created from"]
  rows := (s.lines.toList.zipIdx 1).map fun (line, position) =>
    let i := line.node.instruction
    [rightCell (toString position),
     leftCell ("(" ++ i.operation.classText ++ ")"),
     leftCell i.label.text,
     leftCell i.command.text,
     leftCell (String.intercalate " <<< " (((s.chainAt position).drop 1).map (·.text)))]

end Listing

def Snapshot.text (s : Snapshot) : String :=
  "Degree " ++ toString s.degree ++ ": " ++ toString s.size ++ " instruction(s), " ++
    toString s.syntheticCount ++ " synthetic\n" ++ (Listing.lineage s).text

/-- A moment of a run. -/
def Routine.text (p : Routine) (s : State) : String :=
  let heading := p.scope.text ++ " (" ++ Word.text s.cycles ++ " cycles)"
  (if s.halted then "Halted." else "Running.") ++ "\tSteps: " ++ toString s.steps ++ "\n" ++
    (Listing.machine heading p.code.toList s.pointer s.frame).text

end SLanguage
