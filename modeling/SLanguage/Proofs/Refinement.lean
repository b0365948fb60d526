import Mathlib.Logic.Relation
import SLanguage.Proofs.Degree
import SLanguage.Proofs.Provenance

/-!
# Later snapshots refine earlier ones

`Follows` says that one list of lines goes on from another: nodes are only added, and each line
comes from an earlier line, in the same order and with none left out. Replacing one line is such a
step (`Follows.replace`), so a pass is, and any number of passes (`Registry.refines_of_le`). That a
line comes from only one earlier line is a fact about forests (`Forest.ancestor_unique`): lines are
leaves, so no line of a snapshot descends from another.
-/

namespace SLanguage

open Relation

/-- Node `b` is node `a`, or it was made from `a` by some expansions. -/
def Descends (nodes : List Node) : Nat → Nat → Prop :=
  ReflTransGen (ParentOf nodes)

namespace Descends

variable {nodes nodes' : List Node} {a b c : Nat}

theorem of_prefix (hp : nodes <+: nodes') (h : Descends nodes a b) : Descends nodes' a b := by
  obtain ⟨new, rfl⟩ := hp
  refine ReflTransGen.mono ?_ _ _ h
  rintro a b ⟨node, hb, ha⟩
  refine ⟨node, ?_, ha⟩
  rw [List.getElem?_append_left (Forest.lt_of_getElem? hb)]
  exact hb

/-- A node has one parent, so its ancestors descend from one another. -/
theorem total (ha : Descends nodes a c) (hb : Descends nodes b c) :
    Descends nodes a b ∨ Descends nodes b a := by
  have hunique : Relator.RightUnique (Function.swap (ParentOf nodes)) := by
    rintro c a b ⟨node, hc, ha⟩ ⟨node', hc', hb⟩
    rw [hc] at hc'
    cases hc'
    rw [ha] at hb
    exact Option.some.inj hb
  rcases ReflTransGen.total_of_right_unique hunique (ReflTransGen.swap _ _ ha)
    (ReflTransGen.swap _ _ hb) with h | h
  · exact .inr (ReflTransGen.swap _ _ h)
  · exact .inl (ReflTransGen.swap _ _ h)

end Descends

namespace Forest

variable {code : List Instruction} {nodes nodes' : List Node} {lines lines' : List Line}

theorem le_of_descends (hf : Forest code nodes lines) {a b : Nat} (h : Descends nodes a b) :
    a ≤ b := by
  induction h with
  | refl => exact Nat.le_refl _
  | tail _ hstep ih =>
    obtain ⟨_, _, -, -, hlt, -⟩ := hf.parentOf hstep
    exact Nat.le_trans ih (Nat.le_of_lt hlt)

/-- Nothing that an earlier snapshot knows descends from one of its lines but the line itself. -/
theorem eq_of_descends (hf : Forest code nodes lines) (hf' : Forest code nodes' lines')
    (hp : nodes <+: nodes') {a b : Nat} (ha : a ∈ lines.map (·.id)) (hb : b < nodes.length)
    (h : Descends nodes' a b) : a = b := by
  obtain ⟨new, rfl⟩ := hp
  cases h using ReflTransGen.head_induction_on with
  | refl => rfl
  | head hchild hrest =>
    -- the first child on the way is no later than `b`, so the earlier snapshot has it too
    obtain ⟨node, hc, hparent⟩ := hchild
    have hlt := Nat.lt_of_le_of_lt (hf'.le_of_descends hrest) hb
    rw [List.getElem?_append_left hlt] at hc
    exact absurd ⟨_, node, hc, hparent⟩ ((hf.leaves a).mp ha).2

/-- A node descends from at most one line of an earlier snapshot. -/
theorem ancestor_unique (hf : Forest code nodes lines) (hf' : Forest code nodes' lines')
    (hp : nodes <+: nodes') {x y : Line} {c : Nat} (hx : x ∈ lines) (hy : y ∈ lines)
    (hxc : Descends nodes' x.id c) (hyc : Descends nodes' y.id c) : x = y := by
  have hid : x.id = y.id := by
    rcases hxc.total hyc with h | h
    · exact hf.eq_of_descends hf' hp (List.mem_map_of_mem hx) (lt_of_getElem? (hf.held y hy)) h
    · exact (hf.eq_of_descends hf' hp (List.mem_map_of_mem hy) (lt_of_getElem? (hf.held x hx))
        h).symm
  have hnode := hf.held x hx
  rw [hid, hf.held y hy] at hnode
  cases x
  cases y
  cases hid
  cases hnode
  rfl

end Forest

/-- The second nodes and lines go on from the first; `up` sends the place of a line to the place of
the line that it comes from. -/
structure Follows (up : Nat → Nat) (nodes : List Node) (lines : List Line) (nodes' : List Node)
    (lines' : List Line) : Prop where
  nodes : nodes <+: nodes'
  line : ∀ (k : Nat) y, lines'[k]? = some y →
    ∃ x, lines[up k]? = some x ∧ Descends nodes' x.id y.id
  mono : ∀ j k, j ≤ k → k < lines'.length → up j ≤ up k
  onto : ∀ j, j < lines.length → ∃ k, k < lines'.length ∧ up k = j

namespace Follows

variable {nodes nodes' nodes'' : List Node} {lines lines' lines'' done rest : List Line}
  {up down : Nat → Nat} {x : Line} {block : List Instruction}

theorem refl (nodes : List Node) (lines : List Line) : Follows id nodes lines nodes lines where
  nodes := List.prefix_refl _
  line _ y hy := ⟨y, hy, .refl⟩
  mono _ _ h _ := h
  onto j hj := ⟨j, hj, rfl⟩

theorem trans (h : Follows up nodes lines nodes' lines')
    (h' : Follows down nodes' lines' nodes'' lines'') :
    Follows (up ∘ down) nodes lines nodes'' lines'' where
  nodes := h.nodes.trans h'.nodes
  line k z hz := by
    obtain ⟨y, hy, hyz⟩ := h'.line k z hz
    obtain ⟨x, hx, hxy⟩ := h.line _ y hy
    exact ⟨x, hx, (hxy.of_prefix h'.nodes).trans hyz⟩
  mono j k hjk hk := by
    obtain ⟨y, hy, -⟩ := h'.line k _ (List.getElem?_eq_getElem hk)
    exact h.mono _ _ (h'.mono j k hjk hk) (Forest.lt_of_getElem? hy)
  onto j hj := by
    obtain ⟨k, hk, rfl⟩ := h.onto j hj
    obtain ⟨l, hl, rfl⟩ := h'.onto k hk
    exact ⟨l, hl, rfl⟩

/-- The places of a block of length `b` in place of the line at `p`. -/
def unblock (p b k : Nat) : Nat :=
  if k < p then k else if k < p + b then p else k + 1 - b

/-- The lines of a block come from the line that it replaces, all others from themselves. -/
theorem replace (hne : block ≠ []) : Follows (unblock done.length block.length) nodes
    (done ++ x :: rest) (nodes ++ (x.offspring nodes.length block).map (·.node))
    (done ++ x.offspring nodes.length block ++ rest) where
  nodes := List.prefix_append _ _
  line k y hy := by
    rw [List.append_assoc] at hy
    rw [unblock]
    split
    · next h =>
      rw [List.getElem?_append_left h] at hy ⊢
      exact ⟨y, hy, .refl⟩
    · next h =>
      rw [List.getElem?_append_right (Nat.le_of_not_lt h)] at hy
      split
      · next hk =>
        rw [List.getElem?_append_left (by rw [Line.length_offspring]; omega)] at hy
        have hm := List.mem_of_getElem? hy
        refine ⟨x, by simp, .single ⟨y.node, Forest.held_offspring hm, ?_⟩⟩
        exact (Line.of_mem_offspring hm).2.1
      · next hk =>
        rw [List.getElem?_append_right (by rw [Line.length_offspring]; omega),
          Line.length_offspring] at hy
        refine ⟨y, ?_, .refl⟩
        rw [List.getElem?_append_right (by omega),
          show k + 1 - block.length - done.length = k - done.length - block.length + 1 by omega,
          List.getElem?_cons_succ]
        exact hy
  mono j k hjk _ := by
    rw [unblock, unblock]
    split_ifs <;> omega
  onto j hj := by
    have hpos : 0 < block.length := List.length_pos_of_ne_nil hne
    rw [List.length_append, List.length_cons] at hj
    simp only [List.length_append, Line.length_offspring, unblock]
    rcases Nat.lt_or_ge done.length j with h | h
    · refine ⟨j + block.length - 1, by omega, ?_⟩
      rw [if_neg (by omega), if_neg (by omega)]
      omega
    · refine ⟨j, by omega, ?_⟩
      split_ifs <;> omega

end Follows

namespace Snapshot

/-- The nodes and lines go on from those of the snapshot. -/
def Refines (s : Snapshot) (nodes : List Node) (lines : List Line) : Prop :=
  ∃ up, Follows up s.nodes.toList s.lines.toList nodes lines

theorem Refines.refl (s : Snapshot) : s.Refines s.nodes.toList s.lines.toList := ⟨id, .refl _ _⟩

theorem Refines.replace {s : Snapshot} {nodes : List Node} {done rest : List Line} {x : Line}
    {block : List Instruction} (hs : s.Refines nodes (done ++ x :: rest)) (hne : block ≠ []) :
    s.Refines (nodes ++ (x.offspring nodes.length block).map (·.node))
      (done ++ x.offspring nodes.length block ++ rest) := by
  obtain ⟨up, hup⟩ := hs
  exact ⟨_, hup.trans (.replace hne)⟩

theorem Refines.pass {s s1 s' : Snapshot} {r : Registry} {scope : Scope}
    {n n' : SLanguage.Names} (hs : s.Refines s1.nodes.toList s1.lines.toList)
    (h : (s1.pass fun i position => r.expand ⟨scope, position⟩ i).run n = .ok s' n') :
    s.Refines s'.nodes.toList s'.lines.toList := by
  have hend := pass_induction (P := fun _ nodes done rest => s.Refines nodes (done ++ rest))
    (fun _ _ _ _ _ _ _ hp => by simpa using hp)
    (fun _ _ _ _ _ _ _ _ _ _ _ ht hp => hp.replace ht.ne_nil) h hs
  simpa using hend

end Snapshot

namespace Registry

variable {r : Registry} {scope : Scope} {code : List Instruction}

/-- Fewer passes succeed as well, and more passes refine what they leave. -/
theorem refines_of_le {d d' : Nat} (hd : d ≤ d') {s' : Snapshot}
    (h : r.expandTo scope code d' = .ok s') :
    ∃ s, r.expandTo scope code d = .ok s ∧ s.Refines s'.nodes.toList s'.lines.toList := by
  obtain ⟨s, n, n', hs, h⟩ := exists_expandTo_of_le hd h
  refine ⟨s, hs, ?_⟩
  exact passes_induction (Q := fun _ t => s.Refines t.nodes.toList t.lines.toList)
    (fun _ _ _ _ hp hs => hs.pass hp) h (.refl s)

/-- If a sequence can be expanded to some degree, it can be to every smaller one. The nodes there
are the first of the nodes here, each line here descends from exactly one line there, and going from
the position of a line to the position of that ancestor keeps the order and leaves no position
out. -/
theorem expandTo_refines (r : Registry) (scope : Scope) (code : List Instruction) (d d' : Nat)
    (hd : d ≤ d') (s' : Snapshot) (h : r.expandTo scope code d' = .ok s') :
    ∃ s, r.expandTo scope code d = .ok s ∧ s.nodes.toList <+: s'.nodes.toList ∧
      (∀ y ∈ s'.lines.toList, ∃! x, x ∈ s.lines.toList ∧ Descends s'.nodes.toList x.id y.id) ∧
      ∃ up : Nat → Nat,
        (∀ p, 1 ≤ p → p ≤ s'.size → ∃ x y, s.lineAt? (up p) = some x ∧ s'.lineAt? p = some y ∧
          Descends s'.nodes.toList x.id y.id) ∧
        (∀ p q, 1 ≤ p → p ≤ q → q ≤ s'.size → up p ≤ up q) ∧
        ∀ p, 1 ≤ p → p ≤ s.size → ∃ q, 1 ≤ q ∧ q ≤ s'.size ∧ up q = p := by
  obtain ⟨s, hs, up, hup⟩ := refines_of_le hd h
  have hf := (expandTo_grown hs).forest
  have hf' := (expandTo_grown h).forest
  refine ⟨s, hs, hup.nodes, fun y hy => ?_, fun p => up (p - 1) + 1, fun p h1 h2 => ?_,
    fun p q h1 hpq h2 => ?_, fun p h1 h2 => ?_⟩
  · obtain ⟨k, hk⟩ := List.getElem?_of_mem hy
    obtain ⟨x, hx, hxy⟩ := hup.line k y hk
    refine ⟨x, ⟨List.mem_of_getElem? hx, hxy⟩, ?_⟩
    rintro z ⟨hz, hzy⟩
    exact hf.ancestor_unique hf' hup.nodes hz (List.mem_of_getElem? hx) hzy hxy
  · obtain ⟨y, hy, hat⟩ := Snapshot.lineAt?_eq h1 h2
    obtain ⟨x, hx, hxy⟩ := hup.line _ y hy
    refine ⟨x, y, ?_, hat, hxy⟩
    rw [Snapshot.lineAt?, if_neg (Nat.succ_ne_zero _), Nat.add_sub_cancel, ← Array.getElem?_toList]
    exact hx
  · refine Nat.succ_le_succ (hup.mono _ _ (by omega) ?_)
    rw [Snapshot.size] at h2
    rw [Array.length_toList]
    omega
  · rw [Snapshot.size] at h2
    obtain ⟨k, hk, hkp⟩ := hup.onto (p - 1) (by rw [Array.length_toList]; omega)
    rw [Array.length_toList] at hk
    refine ⟨k + 1, Nat.succ_le_succ (Nat.zero_le _), hk, ?_⟩
    dsimp only
    rw [Nat.add_sub_cancel, hkp]
    omega

theorem demo_refines : ∃ s s', Demo.program.expandTo 1 = .ok s ∧ Demo.program.expandTo 3 = .ok s' ∧
    s.nodes.toList <+: s'.nodes.toList ∧
    ∀ y ∈ s'.lines.toList, ∃! x, x ∈ s.lines.toList ∧ Descends s'.nodes.toList x.id y.id := by
  have hok : (Demo.program.expandTo 3).isOk = true := by decide +kernel
  cases h : Demo.program.expandTo 3 with
  | error fault => rw [h] at hok; cases hok
  | ok s' =>
    obtain ⟨s, hs, hnodes, hline, -⟩ := expandTo_refines _ _ _ 1 3 (by decide) s' h
    exact ⟨s, s', hs, rfl, hnodes, hline⟩

end Registry

end SLanguage
