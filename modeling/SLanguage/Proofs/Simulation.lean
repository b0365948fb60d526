import Mathlib.Data.List.Pairwise
import SLanguage.Proofs.SpliceRuns
import SLanguage.Proofs.Validity

/-!
# A pass keeps the runs

Every template does what its instruction does (`Template.realizes`), and an instruction can be
executed where a run that goes into its block ends (`Template.executes_of_ends`). Position `k` of
the old sequence is `place ps k` in the new one. Frames match when they agree on the old variables
and the scratch of the pass is at zero; then a step of the old sequence is a run of the new one
(`Pieces.advances`), so that both end or neither does, with frames that match. Over any number of
passes this gives `Registry.expandTo_equivalent`.
-/

namespace SLanguage

open Names

/-! ## Templates -/

section
variable {r : Registry} {code : List Instruction} {i : Instruction} {works : List Variable}
  {labels : List Label} {block : List Instruction} {off : Nat}

/-- Every block that writes to no constant does what its instruction does. -/
theorem Template.realizes (h : Template r i works labels block) (hd : Drawn i works labels)
    (hw : Assignable block) (hx : i.label ≠ .exit) (hs : Seg code off block) :
    Realizes r code i works off (off + block.length) := by
  have hvar {v z : Variable} (hv : v ∈ i.command.operands) (hz : z ∈ works) : z ≠ v := by
    rintro rfl
    exact hd.new z hz (List.mem_append_left _ hv)
  cases h with
  | basic _ => exact realizes_self hs.head
  | zeroFresh => exact Block.realizes_zero (hw _ (.head _) _ rfl) (hd.named _ (.head _)) hs
  | zero hl => exact Block.realizes_zero (hw _ (.head _) _ rfl) (Label.isNamed_of_ne hl hx) hs
  | goto => exact Block.realizes_goto (hd.isConstant (.head _)) hs
  | assignConstant =>
    have := Block.realizes_assignConstant (r := r) (hw _ (.head _) _ rfl) hs
    simpa [Block.assignConstant] using this
  | assignSelf => exact Block.realizes_assignSelf (hw _ (.head _) _ rfl) hs
  | @assign l v w z drain restore done h =>
    have hdown : ⟨drain, .decrease w⟩ ∈ Block.assign l v w drain restore done z :=
      List.mem_of_getElem? (i := 3) rfl
    exact Block.realizes_assign (hw _ (.head _) _ rfl) (hw _ hdown _ rfl)
      (hd.isConstant (.head _)) h (hvar (.head _) (.head _)) (hvar (.tail _ (.head _)) (.head _))
      (hd.named _ (.head _)) (hd.named _ (.tail _ (.head _)))
      (hd.named _ (.tail _ (.tail _ (.head _)))) hs
  | jumpZero => exact Block.realizes_jumpZero (hd.named _ (.head _)) hs
  | jumpEqualConstant =>
    have := Block.realizes_jumpEqualConstant (r := r) (hd.isConstant (.head _))
      (hd.named _ (.head _)) hs
    simpa [Block.jumpEqualConstant, Nat.mul_comm, Nat.add_assoc] using this
  | jumpEqualSelf => exact Block.realizes_jumpEqualSelf hs
  | jumpEqualVariable h =>
    have hne := (List.nodup_cons.mp hd.nodup).1
    exact Block.realizes_jumpEqualVariable (hd.isConstant (.head _))
      (hd.isConstant (.tail _ (.head _))) (fun e => hne (e ▸ .head _))
      (hvar (.tail _ (.head _)) (.head _)) (hd.named _ (.head _))
      (hd.named _ (.tail _ (.head _))) (hd.named _ (.tail _ (.tail _ (.head _)))) hs
  | quote hf hs' =>
    exact Splice.realizes_splice hf ⟨hs', hd, hs⟩ (hw _ (hs'.answer_mem _ _) _ rfl)
  | jumpEqualCall =>
    exact Block.realizes_jumpEqualCall (hd.isConstant (.head _)) (hvar (.head _) (.head _)) hs

/-- Where a run that goes into the block ends, the instruction can be executed. -/
theorem Template.executes_of_ends (h : Template r i works labels block) (hr : r.Sound)
    (hd : Drawn i works labels) (hu : (attached code).Nodup) (hs : Seg code off block) {n : Nat}
    {f g : Frame} (he : Ends r code n (off, f) g) :
    ∃ f' signal, i.command.Executes r f f' signal := by
  have plain (hc : i.command.call? = none) : ∃ f' signal, i.command.Executes r f f' signal := by
    obtain ⟨f', signal, hx⟩ := i.command.execute_total 0 f
    exact ⟨f', signal, .plain hc hx⟩
  cases h with
  | @quote l v c fn s hf hs' =>
    obtain ⟨w, hw⟩ := Splice.worth_of_ends hf ⟨hs', hd, hs⟩ hr hu he
    exact ⟨_, _, w, fun c hc => by cases hc; exact hw, rfl⟩
  | jumpEqualCall =>
    obtain ⟨m, f', signal, pc, -, ⟨w, hw, -⟩, -⟩ := he.step hs.head
    exact ⟨_, _, w, fun c hc => by cases hc; exact hw _ rfl, rfl⟩
  | basic hb =>
    refine plain ?_
    obtain ⟨l, command⟩ := i
    cases command <;> first | rfl | cases hb
  | _ => exact plain rfl

/-- The label of the instruction stands before its block. -/
theorem Template.first (h : Template r i works labels block) (hn : i.label.isNamed = true) :
    ∃ j, block[0]? = some j ∧ j.label = i.label := by
  cases h with
  | zeroFresh => cases hn
  | quote hf hs =>
    rw [hs.block_eq]
    cases hp : Splice.prelude _ _ with
    | nil => exact absurd hp hs.prelude_ne_nil
    | cons j rest => exact ⟨_, rfl, rfl⟩
  | _ => exact ⟨_, rfl, rfl⟩

end

/-! ## Places -/

section
variable {ps : List Piece} {p : Piece} {k : Nat}

/-- Where the block of the instruction at position `k` starts. -/
def place (ps : List Piece) (k : Nat) : Nat := ((ps.take k).flatMap (·.block)).length

theorem place_succ (hk : ps[k]? = some p) : place ps (k + 1) = place ps k + p.block.length := by
  rw [place, place, List.take_add_one, hk, List.flatMap_append, List.length_append]
  simp

theorem place_length (ps : List Piece) : place ps ps.length = (ps.flatMap (·.block)).length := by
  rw [place, List.take_length]

theorem seg_place (hk : ps[k]? = some p) : Seg (ps.flatMap (·.block)) (place ps k) p.block := by
  obtain ⟨hlt, hget⟩ := List.getElem?_eq_some_iff.mp hk
  have hsplit : ps = ps.take k ++ p :: ps.drop (k + 1) := by
    rw [← hget, ← List.drop_eq_getElem_cons hlt, List.take_append_drop]
  have hcode : ps.flatMap (·.block) =
      (ps.take k).flatMap (·.block) ++ (p.block ++ (ps.drop (k + 1)).flatMap (·.block)) := by
    rw [← List.flatMap_cons, ← List.flatMap_append, ← hsplit]
  intro j i hj
  have hj' := (List.getElem?_eq_some_iff.mp hj).1
  rw [hcode, place, List.getElem?_append_right (Nat.le_add_right _ _), Nat.add_sub_cancel_left,
    List.getElem?_append_left hj']
  exact hj

end

/-! ## One pass -/

variable {r : Registry} {n n' : SLanguage.Names} {ps : List Piece}

theorem Instruction.scratch_subset (i : Instruction) (works : List Variable) :
    i.scratch works ⊆ works := by
  intro z hz
  rw [scratch] at hz
  split at hz
  · exact hz
  · cases hz

/-- The frames agree on the old variables, and the scratch of the pass is at zero. -/
structure Matches (n : SLanguage.Names) (ps : List Piece) (f h : Frame) : Prop where
  old : ∀ u, n.OldVar u → h.get u = f.get u
  scratch : ∀ p ∈ ps, ∀ z ∈ p.instruction.scratch p.works, h.get z = 0

namespace Pieces

/-- A work variable is drawn for one piece. -/
theorem works_unique (hp : Pieces r n n' ps) {p q : Piece} (hpm : p ∈ ps) (hqm : q ∈ ps)
    {z : Variable} (hz : z ∈ p.works) (hz' : z ∈ q.works) : p = q := by
  by_contra hne
  have hdisj := (List.nodup_flatMap.mp hp.draws.workNodup).2
  have : Std.Symm (Function.onFun List.Disjoint fun p : Piece => p.works) :=
    ⟨fun _ _ h _ hq hp => h hp hq⟩
  exact hdisj.forall hpm hqm hne hz hz'

/-- Control goes to the block of the instruction to which it went. -/
theorem goes (hp : Pieces r n n' ps) {k pc : Nat} {signal : Signal}
    (hg : Goes (ps.map (·.instruction)) (k + 1) signal pc) :
    Goes (ps.flatMap (·.block)) (place ps (k + 1)) signal (place ps pc) := by
  cases hg with
  | next => exact .next
  | halt =>
    rw [List.length_map, place_length]
    exact .halt
  | jump hn hi hl =>
    rw [List.getElem?_map] at hi
    obtain ⟨p, hk, rfl⟩ := Option.map_eq_some_iff.mp hi
    obtain ⟨j, hj, hjl⟩ := (hp.template (List.mem_of_getElem? hk)).first (hl ▸ hn)
    exact .jump hn (seg_place hk 0 j hj) (hjl.trans hl)

/-- What a pass needs so that its blocks do what their instructions do. -/
structure Faithful (n : SLanguage.Names) (ps : List Piece) : Prop where
  covers : n.CoversVars (ps.map (·.instruction))
  noExit : ∀ p ∈ ps, p.instruction.label ≠ .exit
  assignable : Assignable (ps.flatMap (·.block))

section
variable (hp : Pieces r n n' ps) (hn : Faithful n ps)
include hp hn

theorem realizes {k : Nat} {p : Piece} (hk : ps[k]? = some p) :
    Realizes r (ps.flatMap (·.block)) p.instruction p.works (place ps k) (place ps (k + 1)) := by
  have hpm := List.mem_of_getElem? hk
  rw [place_succ hk]
  exact (hp.template hpm).realizes (hp.drawn hn.covers hpm)
    (fun j hj => hn.assignable j (List.mem_flatMap.mpr ⟨p, hpm, hj⟩)) (hn.noExit p hpm)
    (seg_place hk)

/-- A step of the old sequence is a run of the new one. -/
theorem advances {k k' : Nat} {f f' h : Frame}
    (hm : Moves r (ps.map (·.instruction)) (k, f) (k', f')) (hf : Matches n ps f h) :
    Advances r (ps.flatMap (·.block)) (fun c => c.1 = place ps k' ∧ Matches n ps f' c.2)
      (place ps k, h) := by
  obtain ⟨i, signal, hi, hx, hg⟩ := hm
  have hold := hn.covers i (List.mem_of_getElem? hi)
  rw [List.getElem?_map] at hi
  obtain ⟨p, hk, rfl⟩ := Option.map_eq_some_iff.mp hi
  have hpm := List.mem_of_getElem? hk
  obtain ⟨h1, hx1, hS, hrest⟩ := hx.agree hold hf.old
  refine ((hp.realizes hn hk).advances (hf.scratch p hpm) hx1 (hp.goes hg)).mono ?_
  rintro c ⟨hpc, hget, hzero⟩
  refine ⟨hpc, fun u hu => ?_, fun q hq z hz => ?_⟩
  · rw [hget u fun hw => ?_, hS u hu]
    exact (hp.draws.works u (List.mem_flatMap.mpr ⟨p, hpm, hw⟩)).ne_old hu rfl
  · have hzq := Instruction.scratch_subset _ _ hz
    by_cases hzp : z ∈ p.works
    · obtain rfl := hp.works_unique hpm hq hzp hzq
      exact hzero z hz
    · -- the scratch of another piece is no operand here, since operands are old
      have hnew := hp.draws.works z (List.mem_flatMap.mpr ⟨q, hq, hzq⟩)
      rw [hget z hzp, hrest z fun hop => hnew.ne_old (hold z (List.mem_append_left _ hop)) rfl]
      exact hf.scratch q hq z hz

end

/-- A pass over a regular sequence. -/
theorem faithful (hp : Pieces r n n' ps) (hr : r.Regular)
    (hn : n.Serves r (ps.map (·.instruction))) : Faithful n ps where
  covers := hn.coversVars
  noExit _ hm := hn.regular.noExit _ (List.mem_map.mpr ⟨_, hm, rfl⟩)
  assignable j hj _ hv := ((hp.serves hr hn).regular.fits j hj).writable _
    (Command.written?_mem_operands hv)

section
variable (hp : Pieces r n n' ps) (hr : r.Sound) (hn : n.Serves r (ps.map (·.instruction)))
include hp hr hn

/-- If the old sequence ends, so does the new one, and the frames match. -/
theorem ends_new {k m : Nat} {f g h : Frame} (he : Ends r (ps.map (·.instruction)) m (k, f) g)
    (hk : k ≤ ps.length) (hf : Matches n ps f h) :
    ∃ m' g', Ends r (ps.flatMap (·.block)) m' (place ps k, h) g' ∧ Matches n ps g g' := by
  induction m generalizing k f h with
  | zero =>
    cases he with
    | stop ho =>
      rw [List.length_map] at ho
      have hend : place ps k = (ps.flatMap (·.block)).length := by
        rw [Nat.le_antisymm hk ho, place_length]
      exact ⟨0, h, .stop (Nat.le_of_eq hend.symm), hf⟩
  | succ m ih =>
    cases he with
    | @move _ _ c' _ hm he =>
      have hle : c'.1 ≤ ps.length := by
        have := hm.le
        rwa [List.length_map] at this
      refine (hp.advances (hp.faithful hr.regular hn) hm hf).reaches.ends ?_
      rintro ⟨_, h'⟩ ⟨rfl, hf'⟩
      exact ih he hle hf'

/-- If the new sequence ends, so does the old one. -/
theorem ends_old {k m : Nat} {f g h : Frame}
    (he : Ends r (ps.flatMap (·.block)) m (place ps k, h) g) (hf : Matches n ps f h) :
    ∃ m' g', Ends r (ps.map (·.instruction)) m' (k, f) g' := by
  have hu := (hp.serves hr.regular hn).regular.unique
  -- on the number of steps of the new sequence: every block takes at least one
  induction m using Nat.strongRecOn generalizing k f h with
  | ind m ih =>
    cases hk : ps[k]? with
    | none =>
      refine ⟨0, f, .stop ?_⟩
      rw [List.length_map]
      exact List.getElem?_eq_none_iff.mp hk
    | some p =>
      have hpm := List.mem_of_getElem? hk
      have him : p.instruction ∈ ps.map (·.instruction) := List.mem_map.mpr ⟨p, hpm, rfl⟩
      obtain ⟨h1, signal, hx⟩ := (hp.template hpm).executes_of_ends hr
        (hp.drawn hn.coversVars hpm) hu (seg_place hk) he
      obtain ⟨f', hx', -⟩ := hx.agree (hn.covers _ him).vars fun u hu => (hf.old u hu).symm
      obtain ⟨k', hg⟩ := exists_goes (hn.regular.targets _ him) hx' (k + 1)
      have hm : Moves r (ps.map (·.instruction)) (k, f) (k', f') :=
        ⟨_, signal, by rw [List.getElem?_map, hk]; rfl, hx', hg⟩
      obtain ⟨m', ⟨_, h'⟩, hlt, ⟨rfl, hf'⟩, he'⟩ := he.after_advances hu
        (hp.advances (hp.faithful hr.regular hn) hm hf)
      obtain ⟨j, g', hj⟩ := ih m' hlt he' hf'
      exact ⟨j + 1, g', .move hm hj⟩

end

end Pieces

/-! ## Any number of passes -/

/-- On every input both sequences end or neither does, and then they agree on the variables of
`V`. -/
structure Equivalent (r : Registry) (V : Variable → Prop) (code code' : List Instruction) :
    Prop where
  ends : ∀ inputs, (∃ m g, Ends r code m (0, .starting code inputs) g) ↔
    ∃ m g, Ends r code' m (0, .starting code' inputs) g
  values : ∀ inputs m m' g g', Ends r code m (0, .starting code inputs) g →
    Ends r code' m' (0, .starting code' inputs) g' → ∀ v, V v → g'.get v = g.get v

namespace Equivalent

variable {V W : Variable → Prop} {code code' code'' : List Instruction}

theorem refl (hu : (attached code).Nodup) : Equivalent r V code code :=
  ⟨fun _ => .rfl, fun _ _ _ _ _ he he' _ _ => congrArg (Frame.get · _) (he'.unique hu he)⟩

theorem trans (h : Equivalent r V code code') (h' : Equivalent r W code' code'')
    (hVW : ∀ v, V v → W v) : Equivalent r V code code'' := by
  refine ⟨fun inputs => (h.ends inputs).trans (h'.ends inputs), ?_⟩
  intro inputs m m'' g g'' he he'' v hv
  obtain ⟨m', g', he'⟩ := (h.ends inputs).mp ⟨m, g, he⟩
  rw [h'.values inputs m' m'' g' g'' he' he'' v (hVW v hv), h.values inputs m m' g g' he he' v hv]

end Equivalent

theorem Pieces.matches_starting (hp : Pieces r n n' ps) (inputs : List Value) :
    Matches n ps (.starting (ps.map (·.instruction)) inputs)
      (.starting (ps.flatMap (·.block)) inputs) := by
  refine ⟨fun u _ => by rw [Frame.get_starting, Frame.get_starting], fun p hm z hz => ?_⟩
  have hw := List.mem_flatMap.mpr ⟨p, hm, Instruction.scratch_subset _ _ hz⟩
  obtain ⟨k, rfl, -⟩ := hp.draws.works z hw
  rw [Frame.get_starting, Frame.get_ofInputs_of_ne rfl]
  intro j _ e
  cases e

/-- A pass keeps the runs. -/
theorem Pieces.equivalent (hp : Pieces r n n' ps) (hr : r.Sound)
    (hn : n.Serves r (ps.map (·.instruction))) :
    Equivalent r n.OldVar (ps.map (·.instruction)) (ps.flatMap (·.block)) := by
  have hstart (inputs : List Value) := hp.matches_starting inputs
  refine ⟨fun inputs => ⟨?_, ?_⟩, ?_⟩
  · rintro ⟨m, g, he⟩
    obtain ⟨m', g', he', -⟩ := hp.ends_new hr hn he (Nat.zero_le _) (hstart inputs)
    exact ⟨m', g', he'⟩
  · rintro ⟨m, g, he⟩
    exact hp.ends_old hr hn (k := 0) he (hstart inputs)
  · intro inputs m m' g g' he he' v hv
    obtain ⟨m'', g'', he'', hmatch⟩ := hp.ends_new hr hn he (Nat.zero_le _) (hstart inputs)
    rw [he'.unique (hp.serves hr.regular hn).regular.unique he'', hmatch.old v hv]

/-- What the passes over `code` keep up: the supply has moved on, and the sequence is still
equivalent to `code`. -/
structure Names.Continues (n : SLanguage.Names) (r : Registry) (code code' : List Instruction) :
    Prop where
  serves : n.Serves r code'
  le : (above code).Le n
  equivalent : Equivalent r (above code).OldVar code code'

theorem Pieces.continues (hp : Pieces r n n' ps) (hr : r.Sound) {code : List Instruction}
    (hc : n.Continues r code (ps.map (·.instruction))) :
    n'.Continues r code (ps.flatMap (·.block)) :=
  ⟨hp.serves hr.regular hc.serves, hc.le.trans hp.draws.le,
    hc.equivalent.trans (hp.equivalent hr hc.serves) fun _ hv => hc.le.oldVar hv⟩

/-- A sequence and its expansion to any degree end on the same inputs, with the same values of the
variables that it mentions. -/
theorem Registry.expandTo_equivalent (hr : r.Sound) {code : List Instruction}
    (h : SLanguage.Regular r code) {scope : Scope} {degree : Nat} {s : Snapshot}
    (he : r.expandTo scope code degree = .ok s) :
    Equivalent r (above code).OldVar code s.instructions := by
  obtain ⟨n', he⟩ := expandTo_ok he
  refine (passes_preserve (fun n => n.Continues r code)
    (fun _ _ _ hc hp => hp.continues hr hc) ?_ he).equivalent
  rw [Snapshot.instructions_ofCode]
  exact ⟨h.serves_above, .refl _, .refl h.unique⟩

end SLanguage
