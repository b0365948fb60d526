import SLanguage.Fault

/-!
# Label tables

A table pairs labels with 0-based positions, one position to a label and one label to a position.
`LabelTable.ofCode` pairs every named label of a sequence with the instruction it stands before.
-/

namespace SLanguage

structure LabelTable where
  entries : List (Label × Nat) := []
  deriving DecidableEq, Repr

namespace LabelTable

def position? (t : LabelTable) (l : Label) : Option Nat :=
  (t.entries.find? (·.1 = l)).map (·.2)

def labelAt? (t : LabelTable) (position : Nat) : Option Label :=
  (t.entries.find? (·.2 = position)).map (·.1)

def contains (t : LabelTable) (l : Label) : Bool := (t.position? l).isSome

def size (t : LabelTable) : Nat := t.entries.length

/-- Nothing if the label or the position is already paired. -/
def insert? (t : LabelTable) (l : Label) (position : Nat) : Option LabelTable :=
  if t.entries.any fun e => e.1 = l || e.2 = position then none
  else some ⟨(l, position) :: t.entries⟩

/-- Adds the label of one instruction, unless it has none of its own. -/
def add (scope : Scope) (t : LabelTable) (entry : Instruction × Nat) : Except Fault LabelTable :=
  let (i, position) := entry
  if i.label.isNamed then
    match t.insert? i.label position with
    | some t => .ok t
    | none =>
      let first := (t.position? i.label).getD position
      .error (.duplicateLabel i.label scope (first + 1) (position + 1))
  else .ok t

def ofCode (code : List Instruction) (scope : Scope) : Except Fault LabelTable :=
  code.zipIdx.foldlM (add scope) {}

end LabelTable

end SLanguage
