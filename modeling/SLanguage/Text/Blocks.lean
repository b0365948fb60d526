/-!
# Blocks of code points

A set of characters as an ascending list of blocks, each given by its first and last code point. The
search stops at the first block above the code point; by `Blocks.contains_iff` it misses nothing.
-/

namespace SLanguage.Text

/-- Every block is a proper interval and ends before the next one begins. -/
def isAscending : List (Nat × Nat) → Bool
  | [] => true
  | [block] => block.1 ≤ block.2
  | block :: next :: rest =>
    block.1 ≤ block.2 && block.2 < next.1 && isAscending (next :: rest)

/-- Whether a code point lies in one of the blocks, which are ascending. -/
def inBlocks (n : Nat) : List (Nat × Nat) → Bool
  | [] => false
  | (first, last) :: rest => first ≤ n && (n ≤ last || inBlocks n rest)

theorem inBlocks_eq_any (n : Nat) (blocks : List (Nat × Nat)) (h : isAscending blocks = true) :
    inBlocks n blocks = blocks.any fun block => block.1 ≤ n && n ≤ block.2 := by
  induction blocks with
  | nil => rfl
  | cons block rest ih =>
    cases rest with
    | nil => simp [inBlocks]
    | cons next rest =>
      simp only [isAscending, Bool.and_eq_true, decide_eq_true_eq] at h
      have ih := ih h.2
      rw [inBlocks, ih, List.any_cons (a := block)]
      by_cases hn : block.1 ≤ n
      · simp [hn]
      · have hnext : (next :: rest).any (fun b => b.1 ≤ n && n ≤ b.2) = false := by
          rw [← ih, inBlocks]
          simp only [Bool.and_eq_false_iff, decide_eq_false_iff_not]
          exact .inl (by omega)
        rw [hnext]
        simp [hn]

/-- A table of characters. -/
structure Blocks where
  list : List (Nat × Nat)
  ascending : isAscending list = true

def Blocks.contains (blocks : Blocks) (c : Char) : Bool := inBlocks c.toNat blocks.list

/-- A table has exactly the characters of its blocks. -/
theorem Blocks.contains_iff {blocks : Blocks} {c : Char} :
    blocks.contains c = true ↔ ∃ block ∈ blocks.list, block.1 ≤ c.toNat ∧ c.toNat ≤ block.2 := by
  rw [contains, inBlocks_eq_any _ _ blocks.ascending]
  simp

end SLanguage.Text
