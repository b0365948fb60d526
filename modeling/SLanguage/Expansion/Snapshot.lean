import SLanguage.Names

/-!
# Snapshots

A snapshot is a sequence after some expansion passes, with the history of its instructions. `nodes`
holds every instruction that ever stood in the sequence, parents before children; a line refers to
its node by number. `Snapshot.pass` replaces each line that `expand` replaces, keeps the others, and
adds the new instructions as children of the line they came from.
-/

namespace SLanguage

/-- An instruction with its history. -/
structure Node where
  instruction : Instruction
  /-- The node this one was expanded from. -/
  parent : Option Nat
  /-- The 0-based row of the first sequence that this node descends from. -/
  row : Nat
  deriving DecidableEq, Repr

/-- A node in its place in the sequence. -/
structure Line where
  id : Nat
  node : Node
  deriving DecidableEq, Repr

structure Snapshot where
  nodes : Array Node
  lines : Array Line
  /-- The number of passes. -/
  degree : Nat
  deriving DecidableEq, Repr

namespace Snapshot

def ofCode (code : List Instruction) : Snapshot :=
  let nodes := code.zipIdx.map fun (i, row) => { instruction := i, parent := none, row }
  { nodes := nodes.toArray
    lines := (nodes.zipIdx.map fun (node, id) => ⟨id, node⟩).toArray
    degree := 0 }

def instructions (s : Snapshot) : List Instruction := s.lines.toList.map (·.node.instruction)

def size (s : Snapshot) : Nat := s.lines.size

def syntheticCount (s : Snapshot) : Nat := s.instructions.countP (·.isSynthetic)

/-- Nothing is left to expand. -/
def isBasic (s : Snapshot) : Bool := s.instructions.all (·.isBasic)

def requiredTier (s : Snapshot) : Tier := .requiredFor s.instructions

/-! ## Passes -/

/-- Adds a new instruction at the end, as a child of `parent`. -/
def grow (parent : Line) (s : Snapshot) (i : Instruction) : Snapshot :=
  let node := { instruction := i, parent := some parent.id, row := parent.node.row }
  let line := ⟨s.nodes.size, node⟩
  { s with nodes := s.nodes.push node, lines := s.lines.push line }

/-- Adds a line at the end, or the block that replaces it. -/
def advance (s : Snapshot) (line : Line) : Option (List Instruction) → Snapshot
  | none => { s with lines := s.lines.push line }
  | some block => block.foldl (grow line) s

/-- One pass; `expand` gets each instruction with its 1-based position. -/
def pass (expand : Instruction → Nat → FreshM (Option (List Instruction))) (s : Snapshot) :
    FreshM Snapshot :=
  (s.lines.toList.zipIdx 1).foldlM
    (fun t (line, position) => return t.advance line (← expand line.node.instruction position))
    { s with lines := #[], degree := s.degree + 1 }

/-! ## Provenance -/

/-- The line at a 1-based position. -/
def lineAt? (s : Snapshot) (position : Nat) : Option Line :=
  if position = 0 then none else s.lines[position - 1]?

/-- The 1-based position of a node. -/
def positionOf? (s : Snapshot) (id : Nat) : Option Nat :=
  (s.lines.findIdx? (·.id = id)).map (· + 1)

/-- The instruction that the one at a position was expanded from. -/
def parentAt? (s : Snapshot) (position : Nat) : Option Instruction := do
  let line ← s.lineAt? position
  let parent ← line.node.parent
  return (← s.nodes[parent]?).instruction

/-- A node and its ancestors. A parent always comes before its children. -/
def lineage (nodes : Array Node) (id : Nat) : List Instruction :=
  match nodes[id]? with
  | none => []
  | some node =>
    node.instruction ::
      match node.parent with
      | none => []
      | some parent => if _h : parent < id then lineage nodes parent else []

/-- The instruction at a position and those it descends from, up to the first sequence. -/
def chainAt (s : Snapshot) (position : Nat) : List Instruction :=
  match s.lineAt? position with
  | some line => lineage s.nodes line.id
  | none => []

/-- The number of rows of the first sequence. -/
def rowCount (s : Snapshot) : Nat := s.nodes.countP (·.parent.isNone)

/-- For each row of the first sequence the positions of what it became. -/
def rows (s : Snapshot) : List (List Nat) :=
  (List.range s.rowCount).map fun row =>
    (s.lines.toList.zipIdx 1).filterMap fun (line, position) =>
      if line.node.row = row then some position else none

end Snapshot

end SLanguage
