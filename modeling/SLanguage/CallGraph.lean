import SLanguage.Registry

/-!
# The call graph

A function calls those named in the calls of its body. `Registry.reachableFrom` collects the
functions that a sequence calls, directly or through others, breadth first;
`Registry.findRecursion` looks for a chain of calls that comes back to where it started.
-/

namespace SLanguage

/-- The names called in a sequence, nested calls included, in the order of first appearance. -/
def calleesOf (code : List Instruction) : List String :=
  ((code.filterMap (·.call?)).flatMap fun c => c.breadthFirst.map (·.name)).eraseDups

def Function.callees (f : Function) : List String := calleesOf f.body

/-- The part of a chain of calls that starts with `name`, closed by `name`. -/
def closeChain (chain : List String) (name : String) : List String :=
  chain.dropWhile (· != name) ++ [name]

namespace Registry

/-- Visits a queue of names. A registered name not reached before is reached now, and its callees
join the queue. -/
def reach (r : Registry) (reached : List String) : List String → List String
  | [] => reached
  | name :: queue =>
    if _hs : name ∈ reached then r.reach reached queue
    else
      match _hf : r.get? name with
      | none => r.reach reached queue
      | some f => r.reach (reached ++ [name]) (queue ++ f.callees)
termination_by queue => (r.outside reached, queue.length)
decreasing_by
  · exact Prod.Lex.right _ (by simp)
  · exact Prod.Lex.right _ (by simp)
  · exact Prod.Lex.left _ _ (outside_append_lt (mem_names_of_get? _hf) _hs)

def reachableFrom (r : Registry) (code : List Instruction) : List String :=
  r.reach [] (calleesOf code)

/-- Follows the calls from `name` down. `path` holds the callers on the way here, `finished` the
names known to lie on no cycle; the answer is a cycle or the names finished in the end. -/
def search (r : Registry) (path finished : List String) (name : String) :
    Except (List String) (List String) :=
  if _hp : name ∈ path then .error (closeChain path name)
  else if name ∈ finished then .ok finished
  else
    match _hf : r.get? name with
    | none => .ok finished
    | some f => do
      let finished ← f.callees.foldlM (r.search (path ++ [name])) finished
      .ok (name :: finished)
termination_by r.outside path
decreasing_by exact outside_append_lt (mem_names_of_get? _hf) _hp

/-- A chain of calls that starts and ends with the same function. The search starts from each name
in order. -/
def findRecursion (r : Registry) : Option (List String) :=
  match r.names.foldlM (r.search []) [] with
  | .error chain => some chain
  | .ok _ => none

end Registry

end SLanguage
