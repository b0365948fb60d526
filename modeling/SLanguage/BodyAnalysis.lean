import SLanguage.CallGraph

/-!
# Analyses of function bodies

An analysis computes something of a function from its body and from what it computes of the
functions called there. `Registry.analyse` follows the calls, remembers every body it has
finished, and reports a chain of calls that comes back to a body still in progress.
-/

namespace SLanguage

/-- What is known of bodies, by name. -/
abbrev Memo (α : Type) := Std.TreeMap String α

/-- A computation that reads and extends what is known of bodies, also when it fails. -/
abbrev MemoM (α β : Type) := EStateM Fault (Memo α) β

/-- The answer of a computation that starts with nothing known. -/
def MemoM.fresh {α β : Type} (m : MemoM α β) : Except Fault β :=
  match m.run ∅ with
  | .ok b _ => .ok b
  | .error e _ => .error e

/-- How to analyse the body of a function, given how to analyse a name that is called at a site.
What is kept from call to call is not its business. -/
abbrev BodyAnalysis (α : Type) :=
  ⦃σ : Type⦄ → (Site → String → EStateM Fault σ α) → Function → EStateM Fault σ α

/-- Analyses the function of a name. `chain` holds the bodies in progress, the outermost first. -/
def Registry.analyse {α : Type} (r : Registry) (analysis : BodyAnalysis α) (chain : List String)
    (site : Site) (name : String) : MemoM α α := do
  match (← get)[name]? with
  | some a => return a
  | none =>
    if _hc : name ∈ chain then throw (.recursiveFunction (closeChain chain name))
    else
      match _hf : r.get? name with
      | none => throw (.unknownFunction name site)
      | some f =>
        let a ← analysis (r.analyse analysis (chain ++ [name])) f
        modify (·.insert name a)
        return a
termination_by r.outside chain
decreasing_by exact Registry.outside_append_lt (Registry.mem_names_of_get? _hf) _hc

end SLanguage
