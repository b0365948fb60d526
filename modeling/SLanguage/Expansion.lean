import SLanguage.Expansion.Block
import SLanguage.Expansion.Snapshot
import SLanguage.Expansion.Splice

/-!
# Expansion

`Registry.expand` replaces one synthetic instruction by a block; `Registry.expandTo` makes passes
over a sequence until the wanted degree is reached or nothing synthetic is left. One supply of
names serves all passes.
-/

namespace SLanguage

namespace Registry

/-- The block that replaces an instruction, unless it is basic. -/
def expand (r : Registry) (site : Site) (i : Instruction) : FreshM (Option (List Instruction)) := do
  let l := i.label
  match i.command with
  | .increase _ | .decrease _ | .neutral _ | .jumpNotZero _ _ => return none
  | .zero v =>
    let loop ← if l = .empty then freshLabel else pure l
    return some (Block.zero v loop)
  | .goto target => return some (Block.goto l target (← freshWork))
  | .assignConstant v k => return some (Block.assignConstant l v k)
  | .assign v w =>
    if v = w then return some (Block.assignSelf l v)
    else
      let drain ← freshLabel
      let restore ← freshLabel
      let done ← freshLabel
      return some (Block.assign l v w drain restore done (← freshWork))
  | .jumpZero v target => return some (Block.jumpZero l v target (← freshLabel))
  | .jumpEqualConstant v k target =>
    let skip ← freshLabel
    return some (Block.jumpEqualConstant l v k target skip (← freshWork))
  | .jumpEqualVariable v w target =>
    if v = w then return some (Block.jumpEqualSelf l target)
    else
      let differ ← freshLabel
      let loop ← freshLabel
      let finish ← freshLabel
      let z ← freshWork
      let z' ← freshWork
      return some (Block.jumpEqualVariable l v w target differ loop finish z z')
  | .quote v c =>
    match r.lookup c.name site with
    | .error e => throw e
    | .ok f => return some ((← Splice.draw c f.body).block l v c f.body)
  | .jumpEqualCall v c target => return some (Block.jumpEqualCall l v c target (← freshWork))

/-- Up to `degree` passes, and none over a sequence without synthetic instructions. -/
def passes (r : Registry) (scope : Scope) : (degree : Nat) → Snapshot → FreshM Snapshot
  | 0, s => return s
  | degree + 1, s =>
    if s.isBasic then return s
    else do
      let s ← s.pass fun i position => r.expand ⟨scope, position⟩ i
      r.passes scope degree s

/-- The snapshot of a sequence at a degree. -/
def expandTo (r : Registry) (scope : Scope) (code : List Instruction) (degree : Nat) :
    Except Fault Snapshot :=
  match (r.passes scope degree (.ofCode code)).run (.above code) with
  | .ok s _ => .ok s
  | .error e _ => .error e

end Registry

end SLanguage
