import Std.Data.TreeSet
import SLanguage.Names
import SLanguage.Registry

/-!
# Splices

A call `v <- (F,a1,…,an)` expands into a copy of the body of `F`. A `Splice` holds the names of
the copy: a holder for each argument, a work variable for each other variable of the body, a label
for each of its labels, and the label where the copy ends. `Splice.block` first loads the holders
and zeroes the other variables, so a second pass through the copy starts as the first did; then
comes the body, whose exit is the end; then `v` takes the answer.
-/

namespace SLanguage

structure Splice where
  /-- The work variables that take the arguments. -/
  holders : List Variable
  /-- The other variables of the body, each with its work variable. -/
  locals : List (Variable × Variable)
  finish : Label
  /-- The labels of the body, each with its label in the copy. -/
  labels : List (Label × Label)
  deriving DecidableEq, Repr

namespace Splice

/-- The inputs of the body, each with the holder of its argument. -/
def inputs (holders : List Variable) : List (Variable × Variable) :=
  holders.zipIdx.map fun (holder, place) => (.ofInputIndex place, holder)

def renameVariable (s : Splice) (v : Variable) : Variable :=
  ((inputs s.holders ++ s.locals).lookup v).getD v

def renameLabel (s : Splice) : Label → Label
  | .empty => .empty
  | .exit => s.finish
  | .named name => (s.labels.lookup (.named name)).getD (.named name)

/-- The command that evaluates an argument into its holder. -/
def load (holder : Variable) : Argument → Command
  | .leaf (.constant k) => .assignConstant holder k
  | .leaf v => .assign holder v
  | .call name arguments => .quote holder ⟨name, arguments⟩

/-- Puts a label before the first instruction, in place of the one there. -/
def relabelFirst (l : Label) : List Instruction → List Instruction
  | [] => []
  | i :: rest => { i with label := l } :: rest

def block (s : Splice) (l : Label) (v : Variable) (c : Call) (body : List Instruction) :
    List Instruction :=
  relabelFirst l <|
    List.zipWith (fun holder a => ⟨.empty, load holder a⟩) s.holders c.arguments ++
    s.locals.map (fun (_, z) => ⟨.empty, .zero z⟩) ++
    body.map (·.rename s.renameVariable s.renameLabel) ++
    [⟨s.finish, .assign v (s.renameVariable .result)⟩]

/-- The variables of a body and the result, in order. -/
def varsOf (body : List Instruction) : List Variable :=
  (Std.TreeSet.ofList
    ((.result :: body.flatMap (·.vars)).filter (!·.isConstant)) compare).toList

/-- The named labels of a body, in the order of first appearance. -/
def labelsOf (body : List Instruction) : List Label :=
  ((body.map (·.label)).filter (·.isNamed)).eraseDups

/-- Draws the names for a copy of a body. -/
def draw (c : Call) (body : List Instruction) : FreshM Splice := do
  let holders ← c.arguments.mapM fun _ => freshWork
  let bound := (inputs holders).map (·.1)
  let locals ← ((varsOf body).filter (· ∉ bound)).mapM fun v => return (v, ← freshWork)
  let finish ← freshLabel
  let labels ← (labelsOf body).mapM fun l => return (l, ← freshLabel)
  return { holders, locals, finish, labels }

end Splice

end SLanguage
