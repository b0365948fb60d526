import SLanguage.Demo
import SLanguage.Proofs.Pass
import SLanguage.Proofs.Splice

/-!
# The history of a snapshot is a forest

`Forest code nodes lines` says how the nodes and the lines of a snapshot hang together: the first
nodes are the instructions of `code`, every later one has a parent before it that was synthetic, and
the lines are the nodes without children, in the order of their rows. Replacing one line by the
block of its instruction keeps this up (`Forest.replace`), and a pass does nothing else
(`Snapshot.pass_induction`). The look-ups of a snapshot (chains, positions, rows) then say what they
should (`Registry.expandTo_provenance`).
-/

namespace SLanguage

open Names

/-! ## One pass -/

theorem Template.ne_nil {r : Registry} {i : Instruction} {works : List Variable}
    {labels : List Label} {block : List Instruction} (h : Template r i works labels block) :
    block ≠ [] := by
  cases h with
  | quote hf hs =>
    rw [hs.block_eq]
    simp
  | jumpEqualConstant => simp [Block.jumpEqualConstant]
  | _ => exact List.cons_ne_nil _ _

theorem Registry.isSynthetic_of_expand {r : Registry} {site : Site} {i : Instruction}
    {n n' : SLanguage.Names} {block : List Instruction}
    (h : (r.expand site i).run n = .ok (some block) n') : i.isSynthetic = true := by
  obtain ⟨l, command⟩ := i
  cases command <;> first | rfl | cases h

namespace Line

/-- The lines of a block in place of `x`; their nodes are numbered from `n` on. -/
def offspring (x : Line) (n : Nat) (block : List Instruction) : List Line :=
  (block.zipIdx n).map fun (i, id) =>
    ⟨id, { instruction := i, parent := some x.id, row := x.node.row }⟩

variable {x y : Line} {n : Nat} {block : List Instruction}

theorem map_id_offspring (x : Line) (n : Nat) (block : List Instruction) :
    (x.offspring n block).map (·.id) = List.range' n block.length := by
  rw [offspring, List.map_map]
  exact List.zipIdx_map_snd n block

theorem map_row_offspring (x : Line) (n : Nat) (block : List Instruction) :
    (x.offspring n block).map (·.node.row) = List.replicate block.length x.node.row := by
  rw [offspring, List.map_map, ← List.length_zipIdx (i := n), ← List.map_const']
  rfl

theorem getElem?_offspring (k : Nat) : (x.offspring n block)[k]? = block[k]?.map fun i =>
    ⟨n + k, { instruction := i, parent := some x.id, row := x.node.row }⟩ := by
  rw [offspring, List.getElem?_map, List.getElem?_zipIdx, Option.map_map]
  rfl

theorem length_offspring (x : Line) (n : Nat) (block : List Instruction) :
    (x.offspring n block).length = block.length := by
  rw [offspring, List.length_map, List.length_zipIdx]

/-- A new line is a child of `x` and belongs to its row. -/
theorem of_mem_offspring (h : y ∈ x.offspring n block) :
    n ≤ y.id ∧ y.node.parent = some x.id ∧ y.node.row = x.node.row := by
  obtain ⟨k, hk⟩ := List.getElem?_of_mem h
  rw [getElem?_offspring] at hk
  obtain ⟨i, -, rfl⟩ := Option.map_eq_some_iff.mp hk
  exact ⟨Nat.le_add_right _ _, rfl, rfl⟩

theorem instruction_mem_block (h : y ∈ x.offspring n block) : y.node.instruction ∈ block := by
  obtain ⟨k, hk⟩ := List.getElem?_of_mem h
  rw [getElem?_offspring] at hk
  obtain ⟨i, hi, rfl⟩ := Option.map_eq_some_iff.mp hk
  exact List.mem_of_getElem? hi

end Line

namespace Snapshot

theorem foldl_grow (x : Line) (block : List Instruction) (s : Snapshot) :
    (block.foldl (grow x) s).nodes.toList =
        s.nodes.toList ++ (x.offspring s.nodes.size block).map (·.node) ∧
      (block.foldl (grow x) s).lines.toList =
        s.lines.toList ++ x.offspring s.nodes.size block := by
  induction block generalizing s with
  | nil => simp [Line.offspring]
  | cons i rest ih =>
    obtain ⟨h1, h2⟩ := ih (grow x s i)
    have hsize : (grow x s i).nodes.size = s.nodes.size + 1 := Array.size_push _
    have hnodes : (grow x s i).nodes.toList = s.nodes.toList ++
        [{ instruction := i, parent := some x.id, row := x.node.row }] := Array.toList_push
    have hlines : (grow x s i).lines.toList = s.lines.toList ++
        [⟨s.nodes.size, { instruction := i, parent := some x.id, row := x.node.row }⟩] :=
      Array.toList_push
    rw [List.foldl_cons, h1, h2, hsize, hnodes, hlines, List.append_assoc, List.append_assoc]
    exact ⟨rfl, rfl⟩

/-- A pass goes through the lines from left to right. It keeps a line, or it replaces a synthetic
one by the block of its instruction, with names drawn for it. `P` is about the supply of names, the
nodes so far, the new lines and the old ones that are left. -/
theorem pass_induction {r : Registry}
    {P : SLanguage.Names → List Node → List Line → List Line → Prop}
    (keep : ∀ n n' nodes done x rest, n.Le n' → P n nodes done (x :: rest) →
      P n' nodes (done ++ [x]) rest)
    (replace : ∀ n n' nodes done x rest works labels block,
      x.node.instruction.isSynthetic = true → Draws n n' works labels →
      Template r x.node.instruction works labels block → P n nodes done (x :: rest) →
      P n' (nodes ++ (x.offspring nodes.length block).map (·.node))
        (done ++ x.offspring nodes.length block) rest)
    {scope : Scope} {n n' : SLanguage.Names} {s s' : Snapshot}
    (h : (s.pass fun i position => r.expand ⟨scope, position⟩ i).run n = .ok s' n')
    (hs : P n s.nodes.toList [] s.lines.toList) : P n' s'.nodes.toList s'.lines.toList [] := by
  have fold : ∀ (xs : List (Line × Nat)) (t : Snapshot) (n : SLanguage.Names),
      (xs.foldlM (passStep r scope) t).run n = .ok s' n' →
      P n t.nodes.toList t.lines.toList (xs.map (·.1)) →
      P n' s'.nodes.toList s'.lines.toList [] := by
    intro xs
    induction xs with
    | nil => intro t n h ht; cases h; exact ht
    | cons x xs ih =>
      intro t n h ht
      rw [List.foldlM_cons] at h
      obtain ⟨t1, n1, h1, h⟩ := FreshM.bind_ok h
      obtain ⟨b, n2, h2, h3⟩ := FreshM.bind_ok h1
      cases h3
      obtain ⟨works, labels, hdraws, htemplate⟩ := Registry.expand_ok h2
      refine ih _ n1 h ?_
      cases b with
      | none => simpa [advance] using keep _ _ _ _ _ _ hdraws.le ht
      | some block =>
        obtain ⟨hnodes, hlines⟩ := foldl_grow x.1 block t
        rw [advance, hnodes, hlines]
        exact replace _ _ _ _ _ _ _ _ _ (Registry.isSynthetic_of_expand h2) hdraws htemplate ht
  refine fold _ _ n h ?_
  rw [List.zipIdx_map_fst]
  exact hs

end Snapshot

/-! ## The forest -/

/-- Node `b` was expanded from node `a`. -/
def ParentOf (nodes : List Node) (a b : Nat) : Prop :=
  ∃ node, nodes[b]? = some node ∧ node.parent = some a

/-- How the nodes and the lines of a snapshot of `code` hang together. -/
structure Forest (code : List Instruction) (nodes : List Node) (lines : List Line) : Prop where
  /-- The first nodes are the instructions of `code`. -/
  root : ∀ (k : Nat) i, code[k]? = some i → nodes[k]? = some ⟨i, none, k⟩
  /-- Every other node comes from a synthetic one before it, in the same row. -/
  child : ∀ (k : Nat) node, nodes[k]? = some node → code.length ≤ k →
    ∃ p parent, node.parent = some p ∧ p < k ∧ nodes[p]? = some parent ∧
      parent.instruction.isSynthetic = true ∧ parent.row = node.row
  /-- A line carries the node that it refers to. -/
  held : ∀ x ∈ lines, nodes[x.id]? = some x.node
  nodup : (lines.map (·.id)).Nodup
  /-- The lines are the nodes that are nobody's parent. -/
  leaves : ∀ k, k ∈ lines.map (·.id) ↔ k < nodes.length ∧ ¬ ∃ b, ParentOf nodes k b
  ordered : (lines.map (·.node.row)).Pairwise (· ≤ ·)
  /-- No row is lost. -/
  rows : ∀ k, k < code.length → k ∈ lines.map (·.node.row)

namespace Forest

variable {code : List Instruction} {nodes : List Node} {lines done rest : List Line} {x : Line}
  {block : List Instruction}

theorem lt_of_getElem? {α : Type} {xs : List α} {k : Nat} {a : α} (h : xs[k]? = some a) :
    k < xs.length :=
  (List.getElem?_eq_some_iff.mp h).1

theorem parent_eq_none_iff (hf : Forest code nodes lines) {k : Nat} {node : Node}
    (hk : nodes[k]? = some node) : node.parent = none ↔ k < code.length := by
  constructor
  · intro hn
    by_contra hge
    obtain ⟨p, parent, hp, -⟩ := hf.child k node hk (Nat.le_of_not_lt hge)
    rw [hn] at hp
    cases hp
  · intro hlt
    have hroot := hf.root k _ (List.getElem?_eq_getElem hlt)
    rw [hk] at hroot
    cases hroot
    rfl

/-- What a node with a parent knows of it. -/
theorem parentOf (hf : Forest code nodes lines) {a b : Nat} (h : ParentOf nodes a b) :
    ∃ node parent, nodes[b]? = some node ∧ node.parent = some a ∧ a < b ∧
      nodes[a]? = some parent ∧ parent.instruction.isSynthetic = true ∧
      parent.row = node.row := by
  obtain ⟨node, hb, ha⟩ := h
  have hge : code.length ≤ b := Nat.le_of_not_lt fun hlt => by
    rw [(hf.parent_eq_none_iff hb).mpr hlt] at ha
    cases ha
  obtain ⟨p, parent, hp, hlt, hrest⟩ := hf.child b node hb hge
  rw [ha] at hp
  cases hp
  exact ⟨node, parent, hb, ha, hlt, hrest⟩

/-- The children of a replaced line come on top of the old ones. -/
theorem parentOf_append {k : Nat} (hne : block ≠ []) :
    (∃ b, ParentOf (nodes ++ (x.offspring nodes.length block).map (·.node)) k b) ↔
      (∃ b, ParentOf nodes k b) ∨ k = x.id := by
  constructor
  · rintro ⟨b, node, hb, hk⟩
    rw [List.getElem?_append] at hb
    split at hb
    · exact .inl ⟨b, node, hb, hk⟩
    · obtain ⟨y, hy, rfl⟩ := List.mem_map.mp (List.mem_of_getElem? hb)
      have := (Line.of_mem_offspring hy).2.1
      rw [hk] at this
      exact .inr (Option.some.inj this)
  · rintro (⟨b, node, hb, hk⟩ | rfl)
    · exact ⟨b, node, by rw [List.getElem?_append_left (lt_of_getElem? hb)]; exact hb, hk⟩
    · obtain ⟨i, rest, rfl⟩ := List.exists_cons_of_ne_nil hne
      refine ⟨nodes.length, ⟨i, some x.id, x.node.row⟩, ?_, rfl⟩
      rw [List.getElem?_append_right (Nat.le_refl _), Nat.sub_self]
      rfl

theorem held_offspring {y : Line} (hy : y ∈ x.offspring nodes.length block) :
    (nodes ++ (x.offspring nodes.length block).map (·.node))[y.id]? = some y.node := by
  obtain ⟨k, hk⟩ := List.getElem?_of_mem hy
  have hid : y.id = nodes.length + k := by
    rw [Line.getElem?_offspring] at hk
    obtain ⟨i, -, rfl⟩ := Option.map_eq_some_iff.mp hk
    rfl
  rw [hid, List.getElem?_append_right (Nat.le_add_right _ _), Nat.add_sub_cancel_left,
    List.getElem?_map, hk]
  rfl

section
variable (hf : Forest code nodes (done ++ x :: rest))
include hf

theorem id_lt {y : Line} (hy : y ∈ done ++ x :: rest) : y.id < nodes.length :=
  lt_of_getElem? (hf.held y hy)

omit hf in
theorem getElem?_replace {k : Nat} {node : Node} (h : nodes[k]? = some node) :
    (nodes ++ (x.offspring nodes.length block).map (·.node))[k]? = some node := by
  rw [List.getElem?_append_left (lt_of_getElem? h)]
  exact h

theorem child_replace (hx : x.node.instruction.isSynthetic = true) {k : Nat} {node : Node}
    (hk : (nodes ++ (x.offspring nodes.length block).map (·.node))[k]? = some node)
    (hge : code.length ≤ k) : ∃ p parent, node.parent = some p ∧ p < k ∧
      (nodes ++ (x.offspring nodes.length block).map (·.node))[p]? = some parent ∧
      parent.instruction.isSynthetic = true ∧ parent.row = node.row := by
  have hxm : x ∈ done ++ x :: rest := by simp
  rw [List.getElem?_append] at hk
  split at hk
  · obtain ⟨p, parent, h1, h2, h3, h4⟩ := hf.child k node hk hge
    exact ⟨p, parent, h1, h2, getElem?_replace h3, h4⟩
  · next hle =>
    obtain ⟨y, hy, rfl⟩ := List.mem_map.mp (List.mem_of_getElem? hk)
    obtain ⟨-, hparent, hrow⟩ := Line.of_mem_offspring hy
    have := hf.id_lt hxm
    exact ⟨x.id, x.node, hparent, by omega, getElem?_replace (hf.held x hxm), hx, hrow.symm⟩

/-- The new numbers are above all old ones. -/
theorem nodup_replace :
    (done.map (·.id) ++ List.range' nodes.length block.length ++ rest.map (·.id)).Nodup := by
  have hnodup := hf.nodup
  rw [List.map_append, List.map_cons] at hnodup
  obtain ⟨hdone, hrest, hdisj⟩ := List.nodup_append.mp hnodup
  have hnew : ∀ y ∈ done ++ x :: rest, y.id ∉ List.range' nodes.length block.length := by
    intro y hy hm
    have := (List.mem_range'_1.mp hm).1
    have := hf.id_lt hy
    omega
  refine List.nodup_append.mpr ⟨List.nodup_append.mpr ⟨hdone, List.nodup_range', ?_⟩,
    (List.nodup_cons.mp hrest).2, ?_⟩
  · rintro a ha b hb rfl
    obtain ⟨y, hy, rfl⟩ := List.mem_map.mp ha
    exact hnew y (by simp [hy]) hb
  · rintro a ha b hb rfl
    rcases List.mem_append.mp ha with ha | ha
    · exact hdisj a ha a (List.mem_cons_of_mem _ hb) rfl
    · obtain ⟨y, hy, rfl⟩ := List.mem_map.mp hb
      exact hnew y (by simp [hy]) ha

/-- The replaced line is a parent now, the new ones are not, and nothing else changes. -/
theorem leaves_replace (hne : block ≠ []) (k : Nat) :
    k ∈ done.map (·.id) ++ List.range' nodes.length block.length ++ rest.map (·.id) ↔
      k < nodes.length + block.length ∧
      ¬ ∃ b, ParentOf (nodes ++ (x.offspring nodes.length block).map (·.node)) k b := by
  have hnodup := hf.nodup
  have hleaf := hf.leaves k
  rw [List.map_append, List.map_cons] at hleaf hnodup
  rw [parentOf_append hne]
  simp only [List.mem_append, List.mem_cons, List.mem_range'_1] at hleaf ⊢
  have hkx : k ∈ done.map (·.id) ∨ k ∈ rest.map (·.id) → k ≠ x.id := by
    rintro h rfl
    obtain ⟨-, hrest, hdisj⟩ := List.nodup_append.mp hnodup
    rcases h with h | h
    · exact hdisj _ h _ (List.mem_cons_self ..) rfl
    · exact (List.nodup_cons.mp hrest).1 h
  have hpar : (∃ b, ParentOf nodes k b) → k < nodes.length := by
    rintro ⟨b, hb⟩
    obtain ⟨_, _, -, -, -, hk, -⟩ := hf.parentOf hb
    exact lt_of_getElem? hk
  have hx : x.id < nodes.length := hf.id_lt (by simp)
  constructor
  · rintro ((h | h) | h)
    · obtain ⟨h1, h2⟩ := hleaf.mp (.inl h)
      exact ⟨by omega, not_or.mpr ⟨h2, hkx (.inl h)⟩⟩
    · exact ⟨h.2, not_or.mpr ⟨fun hp => by have := hpar hp; omega, by omega⟩⟩
    · obtain ⟨h1, h2⟩ := hleaf.mp (.inr (.inr h))
      exact ⟨by omega, not_or.mpr ⟨h2, hkx (.inr h)⟩⟩
  · rintro ⟨h1, h2⟩
    obtain ⟨h2, h3⟩ := not_or.mp h2
    by_cases hk : k < nodes.length
    · rcases hleaf.mpr ⟨hk, h2⟩ with h | h | h
      · exact .inl (.inl h)
      · exact absurd h h3
      · exact .inr h
    · exact .inl (.inr ⟨by omega, h1⟩)

/-- The new lines stand in the row of the old one. -/
theorem ordered_replace : (done.map (·.node.row) ++ List.replicate block.length x.node.row ++
    rest.map (·.node.row)).Pairwise (· ≤ ·) := by
  have hord := hf.ordered
  rw [List.map_append, List.map_cons] at hord
  obtain ⟨hdone, hrest, hcross⟩ := List.pairwise_append.mp hord
  obtain ⟨hfirst, hrest⟩ := List.pairwise_cons.mp hrest
  rw [List.append_assoc]
  refine List.pairwise_append.mpr ⟨hdone, List.pairwise_append.mpr
    ⟨List.pairwise_replicate.mpr (.inr (Nat.le_refl _)), hrest, ?_⟩, ?_⟩
  · intro a ha b hb
    rw [List.eq_of_mem_replicate ha]
    exact hfirst b hb
  · intro a ha b hb
    rcases List.mem_append.mp hb with hb | hb
    · rw [List.eq_of_mem_replicate hb]
      exact hcross a ha _ (List.mem_cons_self ..)
    · exact hcross a ha b (List.mem_cons_of_mem _ hb)

/-- A synthetic line may be replaced by any block that is not empty. -/
theorem replace (hx : x.node.instruction.isSynthetic = true) (hne : block ≠ []) :
    Forest code (nodes ++ (x.offspring nodes.length block).map (·.node))
      (done ++ x.offspring nodes.length block ++ rest) where
  root k i hi := getElem?_replace (hf.root k i hi)
  child k node hk hge := hf.child_replace hx hk hge
  held y hy := by
    rcases List.mem_append.mp hy with hy | hy
    · rcases List.mem_append.mp hy with hy | hy
      · exact getElem?_replace (hf.held y (by simp [hy]))
      · exact held_offspring hy
    · exact getElem?_replace (hf.held y (by simp [hy]))
  nodup := by
    rw [List.map_append, List.map_append, Line.map_id_offspring]
    exact hf.nodup_replace
  leaves k := by
    rw [List.map_append, List.map_append, Line.map_id_offspring, List.length_append,
      List.length_map, Line.length_offspring]
    exact hf.leaves_replace hne k
  ordered := by
    rw [List.map_append, List.map_append, Line.map_row_offspring]
    exact hf.ordered_replace
  rows k hk := by
    have hold := hf.rows k hk
    have hlen : block.length ≠ 0 := fun e => hne (List.length_eq_zero_iff.mp e)
    rw [List.map_append, List.map_cons] at hold
    rw [List.map_append, List.map_append, Line.map_row_offspring]
    simp only [List.mem_append, List.mem_cons, List.mem_replicate] at hold ⊢
    tauto

end

end Forest

namespace Snapshot

theorem getElem?_ofCode (code : List Instruction) (k : Nat) :
    (ofCode code).nodes.toList[k]? = code[k]?.map (⟨·, none, k⟩) ∧
      (ofCode code).lines.toList[k]? = code[k]?.map fun i => ⟨k, i, none, k⟩ := by
  simp [ofCode, List.getElem?_zipIdx, Function.comp_def]

/-- Before the first pass every instruction is a root and a line. -/
theorem forest_ofCode (code : List Instruction) :
    Forest code (ofCode code).nodes.toList (ofCode code).lines.toList := by
  have hnode (k : Nat) := (getElem?_ofCode code k).1
  have hline (k : Nat) := (getElem?_ofCode code k).2
  have hkeys {key : Line → Nat} (hkey : ∀ k i, key ⟨k, i, none, k⟩ = k) :
      (ofCode code).lines.toList.map key = List.range code.length := by
    refine List.ext_getElem? fun k => ?_
    rw [List.getElem?_map, hline, Option.map_map]
    by_cases hk : k < code.length
    · rw [List.getElem?_eq_getElem hk, List.getElem?_range hk]
      exact congrArg some (hkey k _)
    · rw [List.getElem?_eq_none (Nat.le_of_not_lt hk), List.getElem?_eq_none (by simpa using hk)]
      rfl
  have hlength : (ofCode code).nodes.toList.length = code.length := by simp [ofCode]
  have hparent {a : Nat} : ¬ ∃ b, ParentOf (ofCode code).nodes.toList a b := by
    rintro ⟨b, node, hb, ha⟩
    rw [hnode] at hb
    obtain ⟨i, -, rfl⟩ := Option.map_eq_some_iff.mp hb
    cases ha
  refine ⟨fun k i hi => by rw [hnode, hi]; rfl, fun k node hk hge => ?_, fun x hx => ?_, ?_,
    fun k => ?_, ?_, fun k hk => ?_⟩
  · have := Forest.lt_of_getElem? hk
    omega
  · obtain ⟨k, hk⟩ := List.getElem?_of_mem hx
    rw [hline] at hk
    obtain ⟨i, hi, rfl⟩ := Option.map_eq_some_iff.mp hk
    rw [hnode, hi]
    rfl
  · rw [hkeys fun _ _ => rfl]
    exact List.nodup_range
  · rw [hkeys fun _ _ => rfl, List.mem_range, hlength]
    exact (and_iff_left hparent).symm
  · rw [hkeys fun _ _ => rfl]
    exact List.pairwise_le_range
  · rw [hkeys fun _ _ => rfl]
    exact List.mem_range.mpr hk

/-! ## Chains -/

variable {code : List Instruction} {nodes : List Node} {lines : List Line}

/-- Later nodes do not change a chain. -/
theorem lineage_append (new : List Node) {k : Nat} (hk : k < nodes.length) :
    lineage (nodes ++ new).toArray k = lineage nodes.toArray k := by
  induction k using Nat.strongRecOn with
  | ind k ih =>
    rw [lineage, lineage, List.getElem?_toArray, List.getElem?_toArray,
      List.getElem?_append_left hk, List.getElem?_eq_getElem hk]
    dsimp only
    cases nodes[k].parent with
    | none => rfl
    | some p =>
      dsimp only
      split
      · next hp => rw [ih p hp (Nat.lt_trans hp hk)]
      · rfl

/-- In a forest a chain goes on as long as there is a parent. -/
theorem lineage_eq (hf : Forest code nodes lines) {k : Nat} {node : Node}
    (hk : nodes[k]? = some node) : lineage nodes.toArray k =
      node.instruction :: node.parent.elim [] (lineage nodes.toArray) := by
  rw [lineage, List.getElem?_toArray, hk]
  cases hp : node.parent with
  | none => simp only [hp, Option.elim_none]
  | some p =>
    obtain ⟨_, _, -, -, hlt, -⟩ := hf.parentOf ⟨node, hk, hp⟩
    simp only [hp, Option.elim_some, dif_pos hlt]

/-- A chain ends with the instruction of its row. -/
theorem getLast?_lineage (hf : Forest code nodes lines) {k : Nat} {node : Node}
    (hk : nodes[k]? = some node) : node.row < code.length ∧
      (lineage nodes.toArray k).getLast? = code[node.row]? := by
  induction k using Nat.strongRecOn generalizing node with
  | ind k ih =>
    rw [lineage_eq hf hk]
    cases hp : node.parent with
    | none =>
      have hlt := (hf.parent_eq_none_iff hk).mp hp
      have hroot := hf.root k _ (List.getElem?_eq_getElem hlt)
      rw [hk] at hroot
      cases hroot
      exact ⟨hlt, (List.getElem?_eq_getElem hlt).symm⟩
    | some p =>
      obtain ⟨_, parent, hk', -, hlt, hparent, -, hrow⟩ := hf.parentOf ⟨node, hk, hp⟩
      rw [hk] at hk'
      cases hk'
      obtain ⟨h1, h2⟩ := ih p hlt hparent
      rw [hrow] at h1 h2
      rw [Option.elim_some, List.getLast?_cons, h2, List.getElem?_eq_getElem h1]
      exact ⟨h1, rfl⟩

/-- The nodes and lines form a forest in which no line is further from its root than there were
passes. -/
structure Grown (code : List Instruction) (s : Snapshot) : Prop where
  forest : Forest code s.nodes.toList s.lines.toList
  depth : ∀ x ∈ s.lines.toList, (lineage s.nodes x.id).length ≤ s.degree + 1

theorem grown_ofCode (code : List Instruction) : Grown code (ofCode code) := by
  refine ⟨forest_ofCode code, fun x hx => ?_⟩
  have hf := forest_ofCode code
  obtain ⟨k, hk⟩ := List.getElem?_of_mem hx
  rw [(getElem?_ofCode code k).2] at hk
  obtain ⟨i, -, rfl⟩ := Option.map_eq_some_iff.mp hk
  have := lineage_eq hf (hf.held _ hx)
  rw [Array.toArray_toList] at this
  rw [this]
  exact Nat.succ_le_succ (Nat.zero_le _)

variable {r : Registry} {scope : Scope} {n n' : SLanguage.Names} {s s' : Snapshot}

/-- In the course of a pass: the new lines may be one step further down than the old ones. -/
structure Growing (code : List Instruction) (degree : Nat) (nodes : List Node)
    (done rest : List Line) : Prop where
  forest : Forest code nodes (done ++ rest)
  done : ∀ x ∈ done, (lineage nodes.toArray x.id).length ≤ degree + 2
  rest : ∀ x ∈ rest, (lineage nodes.toArray x.id).length ≤ degree + 1

namespace Growing

variable {degree : Nat} {done rest : List Line} {x : Line} {block : List Instruction}

theorem keep (h : Growing code degree nodes done (x :: rest)) :
    Growing code degree nodes (done ++ [x]) rest where
  forest := by simpa using h.forest
  done y hy := by
    rcases List.mem_append.mp hy with hy | hy
    · exact h.done y hy
    · rw [List.mem_singleton.mp hy]
      exact Nat.le_succ_of_le (h.rest x (List.mem_cons_self ..))
  rest y hy := h.rest y (List.mem_cons_of_mem _ hy)

theorem replace (h : Growing code degree nodes done (x :: rest))
    (hx : x.node.instruction.isSynthetic = true) (hne : block ≠ []) :
    Growing code degree (nodes ++ (x.offspring nodes.length block).map (·.node))
      (done ++ x.offspring nodes.length block) rest := by
  have hnew := h.forest.replace hx hne
  have hold {y : Line} (hy : y ∈ done ++ x :: rest) :
      lineage (nodes ++ (x.offspring nodes.length block).map (·.node)).toArray y.id =
        lineage nodes.toArray y.id := lineage_append _ (h.forest.id_lt hy)
  refine ⟨hnew, fun y hy => ?_, fun y hy => ?_⟩
  · rcases List.mem_append.mp hy with hy | hy
    · rw [hold (List.mem_append_left _ hy)]
      exact h.done y hy
    · rw [lineage_eq hnew (Forest.held_offspring hy), (Line.of_mem_offspring hy).2.1,
        Option.elim_some, hold (by simp), List.length_cons]
      exact Nat.succ_le_succ (h.rest x (List.mem_cons_self ..))
  · rw [hold (by simp [hy])]
    exact h.rest y (List.mem_cons_of_mem _ hy)

end Growing

theorem Grown.pass (hs : Grown code s)
    (h : (s.pass fun i position => r.expand ⟨scope, position⟩ i).run n = .ok s' n') :
    Grown code s' := by
  obtain ⟨-, -, -, -, hdegree⟩ := pass_ok h
  have hstart : Growing code s.degree s.nodes.toList [] s.lines.toList :=
    ⟨hs.forest, List.forall_mem_nil _, by simpa using hs.depth⟩
  have hend := pass_induction (P := fun _ => Growing code s.degree) (fun _ _ _ _ _ _ _ h => h.keep)
    (fun _ _ _ _ _ _ _ _ _ hx _ ht h => h.replace hx ht.ne_nil) h hstart
  refine ⟨by simpa using hend.forest, fun x hx => ?_⟩
  have hdepth := hend.done x hx
  rw [Array.toArray_toList] at hdepth
  rw [hdegree]
  exact hdepth

/-! ## Look-ups -/

theorem lineAt?_eq {p : Nat} (h1 : 1 ≤ p) (h2 : p ≤ s.size) :
    ∃ line, s.lines.toList[p - 1]? = some line ∧ s.lineAt? p = some line := by
  have hlt : p - 1 < s.lines.size := by
    rw [size] at h2
    omega
  refine ⟨s.lines[p - 1], ?_, ?_⟩
  · rw [Array.getElem?_toList, Array.getElem?_eq_getElem hlt]
  · rw [lineAt?, if_neg (by omega), Array.getElem?_eq_getElem hlt]

/-- A line is found where it stands. -/
theorem positionOf?_eq (hf : Forest code nodes s.lines.toList) {k : Nat} {line : Line}
    (hk : s.lines.toList[k]? = some line) : s.positionOf? line.id = some (k + 1) := by
  have hids : (s.lines.toList.map (·.id))[k]? = some line.id := by
    rw [List.getElem?_map, hk]
    rfl
  have hfind : s.lines.toList.findIdx? (·.id = line.id) = some k := by
    obtain ⟨hlt, hget⟩ := List.getElem?_eq_some_iff.mp hk
    refine List.findIdx?_eq_some_iff_getElem.mpr ⟨hlt, by simp [hget], fun j hj => ?_⟩
    have hne := (List.nodup_iff_getElem?_ne_getElem?.mp hf.nodup) j k hj
      (by rw [List.length_map]; exact hlt)
    rw [hids, List.getElem?_map, List.getElem?_eq_getElem (Nat.lt_trans hj hlt)] at hne
    simpa using hne
  rw [← List.findIdx?_toArray, Array.toArray_toList] at hfind
  rw [positionOf?, hfind]
  rfl

end Snapshot

/-- The members of a list in the order of their keys, cut at `n`. -/
theorem filter_append_filter {α : Type} {key : α → Nat} {xs : List α}
    (h : (xs.map key).Pairwise (· ≤ ·)) (n : Nat) :
    xs.filter (key · < n) ++ xs.filter (n ≤ key ·) = xs := by
  induction xs with
  | nil => rfl
  | cons x rest ih =>
    obtain ⟨hx, hrest⟩ := List.pairwise_cons.mp h
    by_cases hn : key x < n
    · rw [List.filter_cons_of_pos (by simpa using hn),
        List.filter_cons_of_neg (by simpa using hn), List.cons_append, ih hrest]
    · have hge : ∀ y ∈ rest, n ≤ key y := fun y hy =>
        Nat.le_trans (Nat.le_of_not_lt hn) (hx _ (List.mem_map.mpr ⟨y, hy, rfl⟩))
      rw [List.filter_cons_of_neg (by simpa using hn),
        List.filter_cons_of_pos (by simpa using hn),
        List.filter_eq_nil_iff.mpr (fun y hy => by simpa using hge y hy),
        List.filter_eq_self.mpr (fun y hy => by simpa using hge y hy)]
      rfl

/-- Members in the order of their keys, gathered key by key, are the members again. -/
theorem flatMap_filter_range {α : Type} (key : α → Nat) {xs : List α} {n : Nat}
    (h : (xs.map key).Pairwise (· ≤ ·)) (hn : ∀ x ∈ xs, key x < n) :
    ((List.range n).flatMap fun k => xs.filter (key · = k)) = xs := by
  induction n generalizing xs with
  | zero =>
    cases xs with
    | nil => rfl
    | cons x rest => exact absurd (hn x (List.mem_cons_self ..)) (Nat.not_lt_zero _)
  | succ n ih =>
    have hlow : ((List.range n).flatMap fun k => (xs.filter (key · < n)).filter (key · = k)) =
        xs.filter (key · < n) :=
      ih (h.sublist (List.filter_sublist.map key)) fun x hx => by simpa using List.of_mem_filter hx
    have hkey : ∀ k ∈ List.range n, xs.filter (key · = k) =
        (xs.filter (key · < n)).filter (key · = k) := by
      intro k hk
      rw [List.filter_filter]
      refine List.filter_congr fun x _ => ?_
      have := List.mem_range.mp hk
      by_cases e : key x = k
      · simp [e, this]
      · simp [e]
    have htop : xs.filter (key · = n) = xs.filter (n ≤ key ·) := by
      refine List.filter_congr fun x hx => ?_
      have := hn x hx
      rw [decide_eq_decide]
      omega
    rw [List.range_succ, List.flatMap_append, List.flatMap_congr hkey, hlow,
      List.flatMap_singleton, htop]
    exact filter_append_filter h n

namespace Snapshot

variable {code : List Instruction} {s : Snapshot}
  (hf : Forest code s.nodes.toList s.lines.toList)
include hf

theorem rowCount_eq : s.rowCount = code.length := by
  have hle : code.length ≤ s.nodes.toList.length := by
    by_contra hlt
    have hk : s.nodes.toList.length < code.length := by omega
    have := Forest.lt_of_getElem? (hf.root _ _ (List.getElem?_eq_getElem hk))
    omega
  have hroots : (s.nodes.toList.take code.length).countP (·.parent.isNone) = code.length := by
    rw [List.countP_eq_length.mpr fun node hm => ?_, List.length_take, Nat.min_eq_left hle]
    obtain ⟨k, hk⟩ := List.getElem?_of_mem hm
    have hlt := Forest.lt_of_getElem? hk
    rw [List.length_take] at hlt
    rw [List.getElem?_take_of_lt (by omega)] at hk
    rw [Option.isNone_iff_eq_none]
    exact (hf.parent_eq_none_iff hk).mpr (by omega)
  have hothers : (s.nodes.toList.drop code.length).countP (·.parent.isNone) = 0 := by
    refine List.countP_eq_zero.mpr fun node hm hn => ?_
    obtain ⟨k, hk⟩ := List.getElem?_of_mem hm
    rw [List.getElem?_drop] at hk
    have := (hf.parent_eq_none_iff hk).mp (Option.isNone_iff_eq_none.mp hn)
    omega
  rw [rowCount, ← Array.countP_toList, ← List.take_append_drop code.length s.nodes.toList,
    List.countP_append, hroots, hothers, Nat.add_zero]

theorem rows_eq : s.rows = (List.range code.length).map fun row =>
    ((s.lines.toList.zipIdx 1).filter (·.1.node.row = row)).map (·.2) := by
  rw [rows, rowCount_eq hf]
  refine List.map_congr_left fun row _ => ?_
  rw [← List.filterMap_eq_map, List.filterMap_filter]
  refine List.filterMap_congr fun x _ => ?_
  by_cases h : x.1.node.row = row <;> simp [h]

omit hf in
theorem map_zipIdx_row (s : Snapshot) :
    (s.lines.toList.zipIdx 1).map (·.1.node.row) = s.lines.toList.map (·.node.row) := by
  rw [show (fun x : Line × Nat => x.1.node.row) = (·.node.row) ∘ Prod.fst from rfl,
    ← List.map_map, List.zipIdx_map_fst]

/-- Row after row, the rows list every position. -/
theorem flatten_rows : s.rows.flatten = List.range' 1 s.size := by
  have hlt : ∀ x ∈ s.lines.toList.zipIdx 1, x.1.node.row < code.length := fun x hx =>
    (getLast?_lineage hf (hf.held _ (List.fst_mem_of_mem_zipIdx hx))).1
  have hordered := hf.ordered
  rw [← map_zipIdx_row] at hordered
  have hall := flatMap_filter_range (fun x : Line × Nat => x.1.node.row) hordered hlt
  rw [rows_eq hf, ← List.flatMap_def, ← List.map_flatMap, hall, List.zipIdx_map_snd]
  rfl

theorem row_ne_nil {row : List Nat} (h : row ∈ s.rows) : row ≠ [] := by
  rw [rows_eq hf] at h
  obtain ⟨k, hk, rfl⟩ := List.mem_map.mp h
  obtain ⟨x, hx, hrow⟩ := List.mem_map.mp (hf.rows k (List.mem_range.mp hk))
  obtain ⟨j, hj⟩ := List.getElem?_of_mem hx
  have hmem : (x, 1 + j) ∈ s.lines.toList.zipIdx 1 := List.mk_add_mem_zipIdx_iff_getElem?.mpr hj
  intro e
  have := List.filter_eq_nil_iff.mp (List.map_eq_nil_iff.mp e) _ hmem
  simp [hrow] at this

end Snapshot

namespace Registry

variable {r : Registry} {scope : Scope} {n n' : SLanguage.Names}

/-- What every pass keeps up, any number of passes keeps up. -/
theorem passes_induction {Q : SLanguage.Names → Snapshot → Prop}
    (hpass : ∀ n n' s s',
      (s.pass fun i position => r.expand ⟨scope, position⟩ i).run n = .ok s' n' →
      Q n s → Q n' s')
    {degree : Nat} {s s' : Snapshot} (h : (r.passes scope degree s).run n = .ok s' n')
    (hs : Q n s) : Q n' s' := by
  induction degree generalizing n s with
  | zero => cases h; exact hs
  | succ degree ih =>
    rw [passes] at h
    split at h
    · cases h; exact hs
    · obtain ⟨s1, n1, h1, h⟩ := FreshM.bind_ok h
      exact ih h (hpass _ _ _ _ h1 hs)

theorem expandTo_grown {code : List Instruction} {degree : Nat} {s : Snapshot}
    (h : r.expandTo scope code degree = .ok s) : s.Grown code := by
  obtain ⟨n', h⟩ := expandTo_ok h
  exact passes_induction (Q := fun _ s => s.Grown code) (fun _ _ _ _ hp hs => hs.pass hp) h
    (Snapshot.grown_ofCode code)

/-- The history of every snapshot is a forest: its roots are the instructions of the sequence, its
leaves are the lines. A line is found at its position; its chain goes from parent to parent, is no
longer than the passes allow, starts with the line and ends with the instruction of its row. The
rows share out all positions, in order, and none is empty. -/
theorem expandTo_provenance (r : Registry) (scope : Scope) (code : List Instruction) (degree : Nat)
    (s : Snapshot) (h : r.expandTo scope code degree = .ok s) :
    Forest code s.nodes.toList s.lines.toList ∧
    (∀ (k : Nat) node, s.nodes[k]? = some node →
      (node.parent = none ↔ k < code.length) ∧
      Snapshot.lineage s.nodes k =
        node.instruction :: node.parent.elim [] (Snapshot.lineage s.nodes)) ∧
    (∀ p, 1 ≤ p → p ≤ s.size → ∃ line, s.lineAt? p = some line ∧ s.positionOf? line.id = some p ∧
      (s.chainAt p).length ≤ s.degree + 1 ∧
      (s.chainAt p).head? = some line.node.instruction ∧
      line.node.row < code.length ∧ (s.chainAt p).getLast? = code[line.node.row]?) ∧
    s.rows.flatten = List.range' 1 s.size ∧ s.rows.length = code.length ∧
      ∀ row ∈ s.rows, row ≠ [] := by
  obtain ⟨hf, hdepth⟩ := expandTo_grown h
  have hchain {k : Nat} {node : Node} (hk : s.nodes.toList[k]? = some node) :
      Snapshot.lineage s.nodes k =
        node.instruction :: node.parent.elim [] (Snapshot.lineage s.nodes) := by
    have := Snapshot.lineage_eq hf hk
    rwa [Array.toArray_toList] at this
  refine ⟨hf, fun k node hk => ?_, fun p h1 h2 => ?_, Snapshot.flatten_rows hf, ?_,
    fun row => Snapshot.row_ne_nil hf⟩
  · rw [← Array.getElem?_toList] at hk
    exact ⟨hf.parent_eq_none_iff hk, hchain hk⟩
  · obtain ⟨line, hline, hat⟩ := Snapshot.lineAt?_eq h1 h2
    have hm := List.mem_of_getElem? hline
    have hheld := hf.held line hm
    obtain ⟨hrow, hlast⟩ := Snapshot.getLast?_lineage hf hheld
    rw [Array.toArray_toList] at hlast
    have hposition := Snapshot.positionOf?_eq hf hline
    rw [Nat.sub_add_cancel h1] at hposition
    refine ⟨line, hat, hposition, ?_, ?_, hrow, ?_⟩ <;> rw [Snapshot.chainAt, hat]
    · exact hdepth line hm
    · dsimp only
      rw [hchain hheld]
      rfl
    · exact hlast
  · rw [Snapshot.rows_eq hf, List.length_map, List.length_range]

theorem demo_provenance : ∃ s, Demo.program.expandTo 3 = .ok s ∧
    Forest Demo.program.instructions s.nodes.toList s.lines.toList ∧
    s.rows.flatten = List.range' 1 s.size ∧ s.rows.length = Demo.program.instructions.length := by
  have hok : (Demo.program.expandTo 3).isOk = true := by decide +kernel
  cases h : Demo.program.expandTo 3 with
  | error fault => rw [h] at hok; cases hok
  | ok s =>
    obtain ⟨hf, -, -, hrows, hcount, -⟩ := expandTo_provenance _ _ _ 3 s h
    exact ⟨s, rfl, hf, hrows, hcount⟩

end Registry

end SLanguage
