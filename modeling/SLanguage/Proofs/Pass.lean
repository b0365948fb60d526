import SLanguage.Proofs.Templates

/-!
# Passes over a sequence

A pass cuts the sequence into `Pieces`, one for each instruction, with names from one supply in
turn; the new sequence is the blocks one after the other (`pass_ok`). What every pass preserves,
the snapshot at any degree has (`passes_preserve`).
-/

namespace SLanguage

open Names

/-- An instruction, the names drawn for it, and the block in its place. -/
structure Piece where
  instruction : Instruction
  works : List Variable
  labels : List Label
  block : List Instruction

inductive Pieces (r : Registry) : SLanguage.Names → SLanguage.Names → List Piece → Prop where
  | nil {n : SLanguage.Names} : Pieces r n n []
  | cons {n n1 n' : SLanguage.Names} {p : Piece} {ps : List Piece}
      (hd : Draws n n1 p.works p.labels)
      (ht : Template r p.instruction p.works p.labels p.block) (hs : Pieces r n1 n' ps) :
      Pieces r n n' (p :: ps)

variable {r : Registry} {n n' : SLanguage.Names} {scope : Scope}

/-- All names of a pass come from one supply. -/
theorem Pieces.draws {ps : List Piece} (h : Pieces r n n' ps) :
    Draws n n' (ps.flatMap (·.works)) (ps.flatMap (·.labels)) := by
  induction h with
  | nil => exact .refl _
  | cons hd _ _ ih => exact hd.append ih

theorem Pieces.template {ps : List Piece} (h : Pieces r n n' ps) {p : Piece} (hp : p ∈ ps) :
    Template r p.instruction p.works p.labels p.block := by
  induction h with
  | nil => cases hp
  | cons _ ht _ ih =>
    rcases List.mem_cons.mp hp with rfl | hp
    · exact ht
    · exact ih hp

/-! ## Snapshots as sequences -/

namespace Snapshot

theorem instructions_push (s : Snapshot) (line : Line) (nodes : Array Node) (d : Nat) :
    instructions ⟨nodes, s.lines.push line, d⟩ = s.instructions ++ [line.node.instruction] := by
  simp [instructions]

theorem instructions_grow (line : Line) (block : List Instruction) (s : Snapshot) :
    (block.foldl (grow line) s).instructions = s.instructions ++ block ∧
      (block.foldl (grow line) s).degree = s.degree := by
  induction block generalizing s with
  | nil => simp
  | cons i rest ih =>
    obtain ⟨h1, h2⟩ := ih (grow line s i)
    rw [List.foldl_cons, h1, h2, grow, instructions_push, List.append_assoc]
    exact ⟨rfl, rfl⟩

theorem instructions_advance (s : Snapshot) (line : Line) (b : Option (List Instruction)) :
    (s.advance line b).instructions = s.instructions ++ b.getD [line.node.instruction] ∧
      (s.advance line b).degree = s.degree := by
  cases b with
  | none => exact ⟨instructions_push s line _ _, rfl⟩
  | some block => exact instructions_grow line block s

theorem instructions_ofCode (code : List Instruction) : (ofCode code).instructions = code := by
  simp only [instructions, ofCode, List.map_map]
  rw [show ((fun x => x.node.instruction) ∘ fun x : Node × Nat => Line.mk x.2 x.1) =
    (·.instruction) ∘ Prod.fst from rfl, ← List.map_map, List.zipIdx_map_fst, List.map_map]
  exact List.zipIdx_map_fst 0 code

/-- One step of a pass. -/
abbrev passStep (r : Registry) (scope : Scope) (t : Snapshot) (x : Line × Nat) : FreshM Snapshot :=
  do return t.advance x.1 (← r.expand ⟨scope, x.2⟩ x.1.node.instruction)

theorem foldlM_passStep_ok {xs : List (Line × Nat)} {t t' : Snapshot}
    (h : (xs.foldlM (passStep r scope) t).run n = .ok t' n') :
    ∃ ps, Pieces r n n' ps ∧ ps.map (·.instruction) = xs.map (·.1.node.instruction) ∧
      t'.instructions = t.instructions ++ ps.flatMap (·.block) ∧ t'.degree = t.degree := by
  induction xs generalizing n t with
  | nil => cases h; exact ⟨[], .nil, rfl, by simp, rfl⟩
  | cons x xs ih =>
    rw [List.foldlM_cons] at h
    obtain ⟨t1, n1, h1, h⟩ := FreshM.bind_ok h
    obtain ⟨b, n2, h2, h3⟩ := FreshM.bind_ok h1
    cases h3
    obtain ⟨works, labels, hd, ht⟩ := Registry.expand_ok h2
    obtain ⟨ps, hps, hi, hb, hdeg⟩ := ih h
    obtain ⟨ha, hadeg⟩ := instructions_advance t x.1 b
    refine ⟨⟨x.1.node.instruction, works, labels, b.getD [x.1.node.instruction]⟩ :: ps,
      .cons hd ht hps, by simp [hi], ?_, hdeg.trans hadeg⟩
    rw [hb, ha, List.flatMap_cons, List.append_assoc]

theorem foldlM_passStep_error {xs : List (Line × Nat)} {t : Snapshot} {e : Fault}
    (h : (xs.foldlM (passStep r scope) t).run n = .error e n') :
    Exhausted e ∨ ∃ i ∈ xs.map (·.1.node.instruction), ∃ v c site,
      i.command = .quote v c ∧ r.get? c.name = none ∧ e = .unknownFunction c.name site := by
  induction xs generalizing n t with
  | nil => cases h
  | cons x xs ih =>
    rw [List.foldlM_cons] at h
    rcases FreshM.bind_error h with h | ⟨t1, n1, -, h⟩
    · rcases FreshM.bind_error h with h | ⟨b, n2, -, h⟩
      · refine (Registry.expand_error h).imp_right ?_
        rintro ⟨v, c, hc⟩
        exact ⟨_, by simp, v, c, _, hc⟩
      · cases h
    · refine (ih h).imp_right ?_
      rintro ⟨i, hi, hc⟩
      exact ⟨i, by simp at hi ⊢; exact .inr hi, hc⟩

theorem map_zipIdx_instructions (s : Snapshot) :
    (s.lines.toList.zipIdx 1).map (·.1.node.instruction) = s.instructions := by
  rw [show (fun x : Line × Nat => x.1.node.instruction) = (·.node.instruction) ∘ Prod.fst from rfl,
    ← List.map_map, List.zipIdx_map_fst]
  rfl

theorem pass_ok {s s' : Snapshot}
    (h : (s.pass fun i position => r.expand ⟨scope, position⟩ i).run n = .ok s' n') :
    ∃ ps, Pieces r n n' ps ∧ ps.map (·.instruction) = s.instructions ∧
      s'.instructions = ps.flatMap (·.block) ∧ s'.degree = s.degree + 1 := by
  obtain ⟨ps, hps, hi, hb, hd⟩ := foldlM_passStep_ok h
  exact ⟨ps, hps, hi.trans (map_zipIdx_instructions s), by simpa [instructions] using hb, hd⟩

theorem pass_error {s : Snapshot} {e : Fault}
    (h : (s.pass fun i position => r.expand ⟨scope, position⟩ i).run n = .error e n') :
    Exhausted e ∨ ∃ i ∈ s.instructions, ∃ v c site,
      i.command = .quote v c ∧ r.get? c.name = none ∧ e = .unknownFunction c.name site := by
  have := foldlM_passStep_error h
  rwa [map_zipIdx_instructions] at this

end Snapshot

/-! ## Many passes -/

namespace Registry

variable (Inv : SLanguage.Names → List Instruction → Prop)

theorem passes_preserve
    (hpass : ∀ n n' ps, Inv n (ps.map (·.instruction)) → Pieces r n n' ps →
      Inv n' (ps.flatMap (·.block)))
    {degree : Nat} {s s' : Snapshot} (hs : Inv n s.instructions)
    (h : (r.passes scope degree s).run n = .ok s' n') : Inv n' s'.instructions := by
  induction degree generalizing n s with
  | zero => cases h; exact hs
  | succ degree ih =>
    rw [passes] at h
    split at h
    · cases h; exact hs
    · obtain ⟨s1, n1, h1, h⟩ := FreshM.bind_ok h
      obtain ⟨ps, hps, hi, hb, -⟩ := Snapshot.pass_ok h1
      exact ih (hb ▸ hpass n n1 ps (hi ▸ hs) hps) h

/-- Passes fail when names run out, or at a quote of an unknown function in a sequence that a pass
left. -/
theorem passes_error
    (hpass : ∀ n n' ps, Inv n (ps.map (·.instruction)) → Pieces r n n' ps →
      Inv n' (ps.flatMap (·.block)))
    {degree : Nat} {s : Snapshot} {e : Fault} (hs : Inv n s.instructions)
    (h : (r.passes scope degree s).run n = .error e n') :
    Exhausted e ∨ ∃ n code, Inv n code ∧ ∃ i ∈ code, ∃ v c site,
      i.command = .quote v c ∧ r.get? c.name = none ∧ e = .unknownFunction c.name site := by
  induction degree generalizing n s with
  | zero => cases h
  | succ degree ih =>
    rw [passes] at h
    split at h
    · cases h
    · rcases FreshM.bind_error h with h | ⟨s1, n1, h1, h⟩
      · exact (Snapshot.pass_error h).imp_right fun hi => ⟨n, _, hs, hi⟩
      · obtain ⟨ps, hps, hi, hb, -⟩ := Snapshot.pass_ok h1
        exact ih (hb ▸ hpass n n1 ps (hi ▸ hs) hps) h

theorem expandTo_ok {code : List Instruction} {degree : Nat} {s : Snapshot}
    (h : r.expandTo scope code degree = .ok s) :
    ∃ n', (r.passes scope degree (.ofCode code)).run (.above code) = .ok s n' := by
  unfold expandTo at h
  split at h
  · next s' n' hp => cases h; exact ⟨n', hp⟩
  · cases h

theorem expandTo_error {code : List Instruction} {degree : Nat} {e : Fault}
    (h : r.expandTo scope code degree = .error e) :
    ∃ n', (r.passes scope degree (.ofCode code)).run (.above code) = .error e n' := by
  unfold expandTo at h
  split at h
  · cases h
  · next e' n' hp => cases h; exact ⟨n', hp⟩

end Registry

end SLanguage
