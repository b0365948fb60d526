import Mathlib.Order.BooleanAlgebra.Set
import SLanguage.Proofs.Blocks
import SLanguage.Proofs.Provenance

/-!
# Expansion is hygienic

The symbols of an instruction are its work variables and its named labels. What a block mentions
beyond the symbols of its instruction was drawn for it (`Template.symbols_subset`), as long as no
body jumps to nowhere. One supply of names serves all passes: at every moment the lines mention old
symbols only, what was drawn so far is old and was not so at the start, and what is drawn next is
not old (`Hygienic.replace`). So the new symbols of one node meet neither those of the sequence nor
the new symbols of another node.
-/

namespace SLanguage

open Names

/-! ## Symbols -/

/-- The work variables and the named labels of an instruction, wherever they stand in it. -/
def Instruction.symbols (i : Instruction) : Set (Variable ⊕ Label) :=
  {x | (∃ v ∈ i.vars, v.isWork = true ∧ x = .inl v) ∨
    ∃ l, (i.label = l ∨ i.target? = some l) ∧ l.isNamed = true ∧ x = .inr l}

/-- The symbols among drawn names. -/
def drawn (works : List Variable) (labels : List Label) : Set (Variable ⊕ Label) :=
  {x | (∃ v ∈ works, x = .inl v) ∨ ∃ l ∈ labels, x = .inr l}

/-- The symbols that the supply has left behind. -/
def Names.old (n : SLanguage.Names) : Set (Variable ⊕ Label) :=
  {x | (∃ v, n.OldVar v ∧ x = .inl v) ∨ ∃ l, n.OldLabel l ∧ x = .inr l}

variable {r : Registry} {n n' : SLanguage.Names} {i : Instruction} {works : List Variable}
  {labels : List Label} {block : List Instruction}

theorem Names.Le.old_subset (h : n.Le n') : n.old ⊆ n'.old := by
  rintro x (⟨v, hv, rfl⟩ | ⟨l, hl, rfl⟩)
  · exact .inl ⟨v, h.oldVar hv, rfl⟩
  · exact .inr ⟨l, h.oldLabel hl, rfl⟩

theorem Names.Covers.symbols_subset (h : n.Covers i) : i.symbols ⊆ n.old := by
  rintro x (⟨v, hv, -, rfl⟩ | ⟨l, hl, -, rfl⟩)
  · exact .inl ⟨v, h.vars v hv, rfl⟩
  · refine .inr ⟨l, ?_, rfl⟩
    rcases hl with rfl | hl
    · exact h.label
    · exact h.target l hl

/-- Drawn names are old after the draw and were not so before. -/
theorem Names.Draws.drawn_subset (h : Draws n n' works labels) :
    drawn works labels ⊆ n'.old \ n.old := by
  rintro x (⟨v, hv, rfl⟩ | ⟨l, hl, rfl⟩)
  · refine ⟨.inl ⟨v, h.oldVar_work hv, rfl⟩, ?_⟩
    rintro (⟨w, hw, e⟩ | ⟨l, -, e⟩)
    · exact (h.works v hv).ne_old hw (Sum.inl.inj e)
    · cases e
  · refine ⟨.inr ⟨l, h.oldLabel_label hl, rfl⟩, ?_⟩
    rintro (⟨v, -, e⟩ | ⟨m, hm, e⟩)
    · cases e
    · exact (h.labels l hl).ne_old hm (Sum.inr.inj e)

/-- No body jumps to nowhere. -/
def Registry.Resolved (r : Registry) : Prop :=
  ∀ name f, r.get? name = some f → ∀ t, ¬ Dangling f.body t

/-- What a block mentions, its instruction mentions, or it was drawn. -/
theorem Template.symbols_subset (h : Template r i works labels block) (hr : r.Resolved) :
    ∀ j ∈ block, j.symbols ⊆ i.symbols ∪ drawn works labels := by
  rintro j hj x (⟨v, hv, hw, rfl⟩ | ⟨l, hl, hn, rfl⟩)
  · rcases h.vars j hj v hv with hv | hv | hv
    · exact .inl (.inl ⟨v, hv, hw, rfl⟩)
    · exact .inr (.inl ⟨v, hv, rfl⟩)
    · cases v with
      | work k => cases hv
      | _ => cases hw
  · rcases hl with rfl | ht
    · rcases h.label j hj with e | e | hl
      · rw [e] at hn
        cases hn
      · exact .inl (.inr ⟨j.label, .inl e.symm, hn, rfl⟩)
      · exact .inr (.inr ⟨j.label, hl, rfl⟩)
    · rcases h.target_cases j hj l ht with hi | ⟨e, -⟩ | hl | ⟨name, -, f, hf, hd⟩
      · exact .inl (.inr ⟨l, .inr hi, hn, rfl⟩)
      · exact .inl (.inr ⟨l, .inl e.symm, hn, rfl⟩)
      · exact .inr (.inr ⟨l, hl, rfl⟩)
      · exact absurd hd (hr name f hf l)

/-! ## New symbols of a node -/

/-- The symbols that the children of a node mention and the node does not. -/
def newSymbols (nodes : List Node) (id : Nat) : Set (Variable ⊕ Label) :=
  {x | ∃ node, nodes[id]? = some node ∧ x ∉ node.instruction.symbols ∧
    ∃ child ∈ nodes, child.parent = some id ∧ x ∈ child.instruction.symbols}

section

variable {code : List Instruction} {nodes : List Node} {done rest : List Line} {x : Line} {id : Nat}

theorem newSymbols_eq_empty (h : ∀ b, ¬ ParentOf nodes id b) : newSymbols nodes id = ∅ := by
  refine Set.eq_empty_of_forall_notMem ?_
  rintro y ⟨-, -, -, child, hc, hp, -⟩
  obtain ⟨b, hb⟩ := List.getElem?_of_mem hc
  exact h b ⟨child, hb, hp⟩

/-- Replacing a line adds no new symbol to another node. -/
theorem newSymbols_replace_of_ne (hf : Forest code nodes (done ++ x :: rest)) (hid : id ≠ x.id) :
    newSymbols (nodes ++ (x.offspring nodes.length block).map (·.node)) id ⊆
      newSymbols nodes id := by
  rintro y ⟨node, hnode, hy, child, hc, hp, hyc⟩
  have hc : child ∈ nodes := by
    rcases List.mem_append.mp hc with hc | hc
    · exact hc
    · obtain ⟨z, hz, rfl⟩ := List.mem_map.mp hc
      rw [(Line.of_mem_offspring hz).2.1] at hp
      exact absurd (Option.some.inj hp).symm hid
  obtain ⟨b, hb⟩ := List.getElem?_of_mem hc
  obtain ⟨-, _, -, -, -, hlt, -⟩ := hf.parentOf ⟨child, hb, hp⟩
  rw [List.getElem?_append_left (Forest.lt_of_getElem? hlt)] at hnode
  exact ⟨node, hnode, hy, child, hc, hp, hyc⟩

/-- The new symbols of the line that is replaced are those of its block. -/
theorem newSymbols_replace_self (hf : Forest code nodes (done ++ x :: rest))
    {S : Set (Variable ⊕ Label)}
    (hS : ∀ j ∈ block, j.symbols ⊆ x.node.instruction.symbols ∪ S) :
    newSymbols (nodes ++ (x.offspring nodes.length block).map (·.node)) x.id ⊆ S := by
  rintro y ⟨node, hnode, hy, child, hc, hp, hyc⟩
  have hx : x ∈ done ++ x :: rest := by simp
  rw [Forest.getElem?_replace (hf.held x hx)] at hnode
  cases hnode
  rcases List.mem_append.mp hc with hc | hc
  · -- the line was a leaf
    obtain ⟨b, hb⟩ := List.getElem?_of_mem hc
    have hleaf := (hf.leaves x.id).mp (List.mem_map.mpr ⟨x, hx, rfl⟩)
    exact absurd ⟨b, child, hb, hp⟩ hleaf.2
  · obtain ⟨z, hz, rfl⟩ := List.mem_map.mp hc
    exact (hS _ (Line.instruction_mem_block hz) hyc).resolve_left hy

end

/-! ## Passes -/

/-- What a pass keeps up, line by line, after the supply was `first`: lines mention old symbols, and
the new symbols of the nodes are old, were not so at first, and are nobody else's. -/
structure Hygienic (code : List Instruction) (first n : SLanguage.Names) (nodes : List Node)
    (lines : List Line) : Prop where
  forest : Forest code nodes lines
  le : first.Le n
  lines : ∀ x ∈ lines, x.node.instruction.symbols ⊆ n.old
  new : ∀ id, newSymbols nodes id ⊆ n.old \ first.old
  apart : ∀ id id', id ≠ id' → ∀ x ∈ newSymbols nodes id, x ∉ newSymbols nodes id'

namespace Hygienic

variable {code : List Instruction} {first : SLanguage.Names} {nodes : List Node}
  {lines done rest : List Line} {x : Line}

theorem mono (h : Hygienic code first n nodes lines) (hle : n.Le n') :
    Hygienic code first n' nodes lines where
  forest := h.forest
  le := h.le.trans hle
  lines y hy := (h.lines y hy).trans hle.old_subset
  new id := (h.new id).trans (Set.sdiff_subset_sdiff_left hle.old_subset)
  apart := h.apart

theorem replace (h : Hygienic code first n nodes (done ++ x :: rest))
    (hr : r.Resolved) (hx : x.node.instruction.isSynthetic = true) (hd : Draws n n' works labels)
    (ht : Template r x.node.instruction works labels block) :
    Hygienic code first n' (nodes ++ (x.offspring nodes.length block).map (·.node))
      (done ++ x.offspring nodes.length block ++ rest) := by
  have hblock := ht.symbols_subset hr
  have hself := (newSymbols_replace_self h.forest hblock).trans hd.drawn_subset
  have hother {id : Nat} (hid : id ≠ x.id) :
      newSymbols (nodes ++ (x.offspring nodes.length block).map (·.node)) id ⊆
        newSymbols nodes id := newSymbols_replace_of_ne h.forest hid
  -- what the block brings is not old, and what the other nodes brought is
  have hcross {id : Nat} (hid : id ≠ x.id) {y : Variable ⊕ Label}
      (hy : y ∈ newSymbols (nodes ++ (x.offspring nodes.length block).map (·.node)) id) :
      y ∉ newSymbols (nodes ++ (x.offspring nodes.length block).map (·.node)) x.id :=
    fun hy' => (hself hy').2 (h.new id (hother hid hy)).1
  refine ⟨h.forest.replace hx ht.ne_nil, h.le.trans hd.le, fun y hy => ?_, fun id => ?_,
    fun id id' hne y hy hy' => ?_⟩
  · have hold : ∀ y ∈ done ++ x :: rest, y.node.instruction.symbols ⊆ n'.old := fun y hy =>
      (h.lines y hy).trans hd.le.old_subset
    rcases List.mem_append.mp hy with hy | hy
    · rcases List.mem_append.mp hy with hy | hy
      · exact hold y (by simp [hy])
      · refine (hblock _ (Line.instruction_mem_block hy)).trans (Set.union_subset ?_ ?_)
        · exact hold x (by simp)
        · exact hd.drawn_subset.trans Set.sdiff_subset
    · exact hold y (by simp [hy])
  · by_cases hid : id = x.id
    · rw [hid]
      exact hself.trans (Set.sdiff_subset_sdiff_right h.le.old_subset)
    · exact (hother hid).trans ((h.new id).trans (Set.sdiff_subset_sdiff_left hd.le.old_subset))
  · by_cases hid : id = x.id
    · rw [hid] at hne hy
      exact hcross hne.symm hy' hy
    · by_cases hid' : id' = x.id
      · rw [hid'] at hy'
        exact hcross hid hy hy'
      · exact h.apart id id' hne y (hother hid hy) (hother hid' hy')

theorem ofCode (code : List Instruction) : Hygienic code (above code) (above code)
    (Snapshot.ofCode code).nodes.toList (Snapshot.ofCode code).lines.toList := by
  have hempty (id : Nat) : newSymbols (Snapshot.ofCode code).nodes.toList id = ∅ := by
    refine newSymbols_eq_empty ?_
    rintro b ⟨node, hb, hp⟩
    rw [(Snapshot.getElem?_ofCode code b).1] at hb
    obtain ⟨i, -, rfl⟩ := Option.map_eq_some_iff.mp hb
    cases hp
  refine ⟨Snapshot.forest_ofCode code, .refl _, fun y hy => ?_, fun id => ?_,
    fun id id' _ y hy => ?_⟩
  · have hi : y.node.instruction ∈ (Snapshot.ofCode code).instructions :=
      List.mem_map.mpr ⟨y, hy, rfl⟩
    rw [Snapshot.instructions_ofCode] at hi
    exact ((above_spec code).2 _ hi).symbols_subset
  · rw [hempty]
    exact Set.empty_subset _
  · rw [hempty] at hy
    exact hy.elim

theorem pass {s s' : Snapshot} {scope : Scope} (hr : r.Resolved)
    (hs : Hygienic code first n s.nodes.toList s.lines.toList)
    (h : (s.pass fun i position => r.expand ⟨scope, position⟩ i).run n = .ok s' n') :
    Hygienic code first n' s'.nodes.toList s'.lines.toList := by
  have hend := Snapshot.pass_induction
    (P := fun n nodes done rest => Hygienic code first n nodes (done ++ rest))
    (fun _ _ _ _ _ _ hle hp => by simpa using hp.mono hle)
    (fun _ _ _ _ _ _ _ _ _ hx hd ht hp => hp.replace hr hx hd ht) h hs
  simpa using hend

end Hygienic

/-! ## Programs -/

namespace Program

/-- Expansion is hygienic. At every degree that a valid program reaches, the new symbols of a node
are none of the program's, and two nodes have no new symbol in common, whichever passes replaced
them. -/
theorem expansion_hygienic (p : Program) (hv : p.isValid = true) (degree : Nat) (s : Snapshot)
    (hs : p.expandTo degree = .ok s) :
    (∀ id, ∀ x ∈ newSymbols s.nodes.toList id, ∀ i ∈ p.instructions, x ∉ i.symbols) ∧
    ∀ id id', id ≠ id' → ∀ x ∈ newSymbols s.nodes.toList id,
      x ∉ newSymbols s.nodes.toList id' := by
  have hw := isValid_iff.mp hv
  have hr : p.functions.Resolved := fun name f hf t => (hw.body hf).not_dangling
  obtain ⟨n', hrun⟩ := Registry.expandTo_ok hs
  have h := Registry.passes_induction
    (Q := fun n s => Hygienic p.instructions (above p.instructions) n s.nodes.toList s.lines.toList)
    (fun _ _ _ _ hp hs => hs.pass hr hp) hrun (Hygienic.ofCode p.instructions)
  refine ⟨fun id x hx i hi hxi => ?_, h.apart⟩
  exact (h.new id hx).2 (((above_spec p.instructions).2 i hi).symbols_subset hxi)

/-- The copies of two bodies in the second pass; one of them has labels of its own, which got new
names. -/
theorem expansion_demo_hygienic : Demo.program.isValid = true ∧
    ∃ s, Demo.program.expandTo 2 = .ok s ∧
      .inr (.named "L3") ∈ newSymbols s.nodes.toList 1 ∧
      .inl (.work 7) ∈ newSymbols s.nodes.toList 2 ∧
      .inr (.named "L3") ∉ newSymbols s.nodes.toList 2 ∧
      ∀ i ∈ Demo.program.instructions, .inr (.named "L3") ∉ i.symbols := by
  have hv : Demo.program.isValid = true := by decide +kernel
  have hnodes : (Demo.program.expandTo 2).toOption.map
      (fun s => [s.nodes.toList[1]?, s.nodes.toList[11]?, s.nodes.toList[2]?,
        s.nodes.toList[18]?]) = some
      [some ⟨⟨.empty, .quote (.work 1) ⟨"Smaller_Equal_Than",
          [.leaf (.input 1), .leaf (.input 2)]⟩⟩, some 0, 0⟩,
        some ⟨⟨.named "L3", .jumpZero (.work 4) (.named "L4")⟩, some 1, 0⟩,
        some ⟨⟨.empty, .quote (.work 2) ⟨"NOT",
          [.call "EQUAL" [.leaf (.input 2), .leaf (.input 1)]]⟩⟩, some 0, 0⟩,
        some ⟨⟨.empty, .quote (.work 7) ⟨"EQUAL",
          [.leaf (.input 2), .leaf (.input 1)]⟩⟩, some 2, 0⟩] := by decide +kernel
  cases hs : Demo.program.expandTo 2 with
  | error e => rw [hs] at hnodes; cases hnodes
  | ok s =>
    simp only [hs, Except.toOption, Option.map_some, Option.some.injEq, List.cons.injEq, and_true]
      at hnodes
    obtain ⟨h1, h11, h2, h18⟩ := hnodes
    obtain ⟨hprogram, hnodes⟩ := expansion_hygienic Demo.program hv 2 s hs
    have hlabel : .inr (.named "L3") ∈ newSymbols s.nodes.toList 1 := by
      refine ⟨_, h1, ?_, _, List.mem_of_getElem? h11, rfl, .inr ⟨_, .inl rfl, rfl, rfl⟩⟩
      rintro (⟨v, -, -, e⟩ | ⟨l, hl | hl, hn, -⟩)
      · cases e
      · rw [← hl] at hn
        cases hn
      · cases hl
    refine ⟨hv, s, rfl, hlabel, ?_, hnodes 1 2 (by decide) _ hlabel, hprogram 1 _ hlabel⟩
    refine ⟨_, h2, ?_, _, List.mem_of_getElem? h18, rfl, .inl ⟨_, ?_, rfl, rfl⟩⟩
    · rintro (⟨v, hv, -, e⟩ | ⟨l, -, -, e⟩)
      · rw [← Sum.inl.inj e] at hv
        revert hv
        decide
      · cases e
    · decide

end Program

end SLanguage
