import SLanguage.Instruction

/-!
# Blocks

The instructions that take the place of a synthetic instruction without a call, given the names they
need. The first carries the label `l` of the instruction it replaces, so jumps to it still arrive.
-/

namespace SLanguage.Block

/-- Counts `v` down. -/
def zero (v : Variable) (loop : Label) : List Instruction :=
  [⟨loop, .decrease v⟩,
   ⟨.empty, .jumpNotZero v loop⟩]

/-- Jumps on a counter that is never zero. -/
def goto (l target : Label) (counter : Variable) : List Instruction :=
  [⟨l, .increase counter⟩,
   ⟨.empty, .jumpNotZero counter target⟩]

/-- Counts `v` up from zero. -/
def assignConstant (l : Label) (v : Variable) (k : Value) : List Instruction :=
  ⟨l, .zero v⟩ :: List.replicate k.toNat ⟨.empty, .increase v⟩

/-- Drains `w` into `z`, then `z` into both `v` and `w`. -/
def assign (l : Label) (v w : Variable) (drain restore done : Label) (z : Variable) :
    List Instruction :=
  [⟨l, .zero v⟩,
   ⟨.empty, .jumpNotZero w drain⟩,
   ⟨.empty, .goto done⟩,
   ⟨drain, .decrease w⟩,
   ⟨.empty, .increase z⟩,
   ⟨.empty, .jumpNotZero w drain⟩,
   ⟨restore, .decrease z⟩,
   ⟨.empty, .increase v⟩,
   ⟨.empty, .increase w⟩,
   ⟨.empty, .jumpNotZero z restore⟩,
   ⟨done, .neutral v⟩]

/-- An assignment of a variable to itself. -/
def assignSelf (l : Label) (v : Variable) : List Instruction := [⟨l, .neutral v⟩]

def jumpZero (l : Label) (v : Variable) (target skip : Label) : List Instruction :=
  [⟨l, .jumpNotZero v skip⟩,
   ⟨.empty, .goto target⟩,
   ⟨skip, .neutral v⟩]

/-- Counts a copy of `v` down `k` times; it must not be zero before and must be zero after. -/
def jumpEqualConstant (l : Label) (v : Variable) (k : Value) (target skip : Label) (z : Variable) :
    List Instruction :=
  ⟨l, .assign z v⟩ ::
    (List.replicate k.toNat [⟨.empty, .jumpZero z skip⟩, ⟨.empty, .decrease z⟩]).flatten ++
    [⟨.empty, .jumpNotZero z skip⟩,
     ⟨.empty, .goto target⟩,
     ⟨skip, .neutral v⟩]

/-- Counts copies of `v` and `w` down together. -/
def jumpEqualVariable (l : Label) (v w : Variable) (target differ loop finish : Label)
    (z z' : Variable) : List Instruction :=
  [⟨l, .assign z v⟩,
   ⟨.empty, .assign z' w⟩,
   ⟨loop, .jumpZero z finish⟩,
   ⟨.empty, .jumpZero z' differ⟩,
   ⟨.empty, .decrease z⟩,
   ⟨.empty, .decrease z'⟩,
   ⟨.empty, .goto loop⟩,
   ⟨finish, .jumpZero z' target⟩,
   ⟨differ, .neutral v⟩]

/-- A comparison of a variable with itself. -/
def jumpEqualSelf (l target : Label) : List Instruction := [⟨l, .goto target⟩]

/-- Evaluates the call into `z`, then compares. -/
def jumpEqualCall (l : Label) (v : Variable) (c : Call) (target : Label) (z : Variable) :
    List Instruction :=
  [⟨l, .quote z c⟩,
   ⟨.empty, .jumpEqualVariable v z target⟩]

end SLanguage.Block
