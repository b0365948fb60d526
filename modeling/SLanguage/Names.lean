import SLanguage.Fault

/-!
# Fresh names

Expansion needs work variables and labels that a sequence does not use. `Names` holds the next
number of each family; `Names.above` starts above every `zN` and every label `LN` of a sequence.
Work numbers have 32 bits and label numbers 64, so either family can run out, and once out stays
out.
-/

namespace SLanguage

structure Names where
  nextWork : Nat := 1
  nextLabel : Nat := 1
  deriving DecidableEq, Repr

namespace Names

/-- Moves past a work variable. -/
def pastVariable (names : Names) : Variable → Names
  | .work n => { names with nextWork := max names.nextWork (n.toNat + 1) }
  | _ => names

/-- Moves past a numbered label. -/
def pastLabel (names : Names) (l : Label) : Names :=
  match l.number? with
  | some n => { names with nextLabel := max names.nextLabel (n + 1) }
  | none => names

/-- Moves past every name of an instruction. -/
def past (names : Names) (i : Instruction) : Names :=
  (i.label :: i.target?.toList).foldl pastLabel (i.vars.foldl pastVariable names)

/-- The names above all those of a sequence. -/
def above (code : List Instruction) : Names := code.foldl past {}

end Names

/-- A computation that draws names. Names drawn before it fails stay drawn. -/
abbrev FreshM (α : Type) := EStateM Fault Names α

def freshWork : FreshM Variable := do
  let names ← get
  if names.nextWork < Variable.numberLimit then
    set { names with nextWork := names.nextWork + 1 }
    return .work (UInt32.ofNat names.nextWork)
  else throw (.namesExhausted .workVariable)

def freshLabel : FreshM Label := do
  let names ← get
  if names.nextLabel < Label.numberLimit then
    set { names with nextLabel := names.nextLabel + 1 }
    return .numbered names.nextLabel
  else throw (.namesExhausted .label)

end SLanguage
