import Mathlib.Data.List.Perm.Basic
import SLanguage.Demo
import SLanguage.Proofs.Blocks

/-!
# Expansion preserves validity

One supply of names serves a sequence when the sequence is regular and every name in it is old. A
pass keeps this up (`Pieces.serves`): the labels of the new sequence are those of the old one and
the drawn ones, each once, and a drawn label is no old one. So a valid program without a label at
the exit stays valid at every degree, unless its names run out.
-/

namespace SLanguage

open Names

/-- What a pass needs of a sequence and its supply of names, and keeps up. -/
structure Names.Serves (n : SLanguage.Names) (r : Registry) (code : List Instruction) : Prop where
  regular : Regular r code
  positive : 1 ≤ n.nextWork
  covers : ∀ i ∈ code, n.Covers i

variable {r : Registry} {n n' : SLanguage.Names} {ps : List Piece}

theorem Regular.serves_above {code : List Instruction} (h : Regular r code) :
    (above code).Serves r code :=
  ⟨h, (above_spec code).1, (above_spec code).2⟩

theorem Names.Serves.coversVars {code : List Instruction} (h : n.Serves r code) :
    n.CoversVars code :=
  fun i hi => (h.covers i hi).vars

namespace Pieces

theorem attached_perm (hp : Pieces r n n' ps) (hr : r.Regular) :
    (attached (ps.flatMap (·.block))).Perm
      (attached (ps.map (·.instruction)) ++ ps.flatMap (·.labels)) := by
  have hn : ∀ p ∈ ps, ∀ l ∈ p.labels, l.isNamed = true := fun p hm l hl =>
    (hp.draws.labels l (List.mem_flatMap.mpr ⟨p, hm, hl⟩)).isNamed
  have hcode : attached (ps.map (·.instruction)) =
      ps.flatMap fun p => attached [p.instruction] := by
    rw [List.map_eq_flatMap, attached_flatMap]
  rw [attached_flatMap, hcode]
  exact (List.Perm.flatMap_left ps fun p hm => (hp.template hm).attached_perm hr (hn p hm)).trans
    (List.flatMap_append_perm ps _ _).symm

theorem covers (hp : Pieces r n n' ps) (hr : r.Regular)
    (h : n.Serves r (ps.map (·.instruction))) : ∀ j ∈ ps.flatMap (·.block), n'.Covers j := by
  intro j hjm
  obtain ⟨p, hm, hj⟩ := List.mem_flatMap.mp hjm
  have ht := hp.template hm
  have hi : p.instruction ∈ ps.map (·.instruction) := List.mem_map.mpr ⟨p, hm, rfl⟩
  have hc : n'.Covers p.instruction := (h.covers _ hi).mono hp.draws.le
  have hlabel : ∀ l ∈ p.labels, n'.OldLabel l := fun l hl =>
    hp.draws.oldLabel_label (List.mem_flatMap.mpr ⟨p, hm, hl⟩)
  refine ⟨hp.coversVars h.coversVars j hjm, ?_, fun t htar => ?_⟩
  · rcases ht.label j hj with hl | hl | hl
    · rw [hl]; rintro k hk; cases hk
    · rw [hl]; exact hc.label
    · exact hlabel _ hl
  · rcases ht.targets (h.regular.noExit _ hi) j hj t htar with hl | hl | ⟨_, -, f, hf, hd⟩
    · exact hc.target t hl
    · rcases List.mem_append.mp hl with hl | hl
      · obtain ⟨-, i, hi, rfl⟩ := mem_attached.mp hl
        rw [List.mem_singleton.mp hi]
        exact hc.label
      · exact hlabel t hl
    · exact absurd hd (hr _ f hf).not_dangling

theorem fits (hp : Pieces r n n' ps) (hr : r.Regular)
    (hb : ∀ a m, r.Calls a m → r.contains m = true) (h : n.Serves r (ps.map (·.instruction))) :
    ∀ j ∈ ps.flatMap (·.block), j.Fits r := by
  intro j hj
  obtain ⟨p, hm, hj⟩ := List.mem_flatMap.mp hj
  have ht := hp.template hm
  have hi : p.instruction ∈ ps.map (·.instruction) := List.mem_map.mpr ⟨p, hm, rfl⟩
  have hfits := h.regular.fits _ hi
  have hnew : ∀ w ∈ p.works, n.NewVar n' w := fun w hw =>
    hp.draws.works w (List.mem_flatMap.mpr ⟨p, hm, hw⟩)
  refine ⟨?_, fun v hv => ?_, fun m hm => ?_⟩
  · exact ht.writable hr (fun w hw => (hnew w hw).isConstant) hfits.writable j hj
  · rcases ht.vars j hj v hv with hv | hv | hv
    · exact hfits.proper v hv
    · exact (hnew v hv).isWellFormed h.positive
    · cases v <;> first | rfl | cases hv
  · rcases ht.callNames j hj m hm with hm | ⟨a, -, ha⟩
    · exact hfits.known m hm
    · exact hb a m ha

/-- One pass keeps up what it needs. -/
theorem serves (hp : Pieces r n n' ps) (hr : r.Regular)
    (h : n.Serves r (ps.map (·.instruction))) : n'.Serves r (ps.flatMap (·.block)) := by
  have hperm := hp.attached_perm hr
  have hcalls : ∀ a m, r.Calls a m → r.contains m = true := by
    rintro a m ⟨f, hf, hm⟩
    obtain ⟨i, hi, hm⟩ := mem_calleesOf.mp hm
    exact ((hr a f hf).fits i hi).known m hm
  refine ⟨⟨⟨?_, fun j hj t ht => ?_, hp.fits hr hcalls h⟩, fun j hj => ?_⟩,
    Nat.le_trans h.positive hp.draws.le.work, hp.covers hr h⟩
  · -- old labels stand once, drawn ones too, and none is both
    refine hperm.nodup_iff.mpr (List.nodup_append.mpr
      ⟨h.regular.unique, hp.draws.labelNodup, fun l hl m hm e => ?_⟩)
    obtain ⟨-, i, hi, rfl⟩ := mem_attached.mp hl
    exact (hp.draws.labels m hm).ne_old (h.covers i hi).label e.symm
  · obtain ⟨p, hm, hj⟩ := List.mem_flatMap.mp hj
    have hi : p.instruction ∈ ps.map (·.instruction) := List.mem_map.mpr ⟨p, hm, rfl⟩
    rw [hperm.mem_iff, List.mem_append]
    rcases (hp.template hm).targets (h.regular.noExit _ hi) j hj t ht with
      hl | hl | ⟨_, -, f, hf, hd⟩
    · exact (h.regular.targets _ hi t hl).imp_right .inl
    · refine .inr ((List.mem_append.mp hl).imp (fun hl => ?_)
        fun hl => List.mem_flatMap.mpr ⟨p, hm, hl⟩)
      obtain ⟨hn, i, hi', rfl⟩ := mem_attached.mp hl
      rw [List.mem_singleton.mp hi'] at hn ⊢
      exact mem_attached.mpr ⟨hn, _, hi, rfl⟩
    · exact absurd hd (hr _ f hf).not_dangling
  · obtain ⟨p, hm, hj⟩ := List.mem_flatMap.mp hj
    rcases (hp.template hm).label j hj with hl | hl | hl
    · rw [hl]; exact Label.noConfusion
    · rw [hl]; exact h.regular.noExit _ (List.mem_map.mpr ⟨p, hm, rfl⟩)
    · have := (hp.draws.labels _ (List.mem_flatMap.mpr ⟨p, hm, hl⟩)).isNamed
      intro e
      rw [e] at this; cases this

end Pieces

namespace Registry

variable {scope : Scope} {degree : Nat} {code : List Instruction}

theorem expandTo_serves (hr : r.Regular) (h : SLanguage.Regular r code) {s : Snapshot}
    (he : r.expandTo scope code degree = .ok s) :
    ∃ n : SLanguage.Names, n.Serves r s.instructions := by
  obtain ⟨n', he⟩ := expandTo_ok he
  refine ⟨n', passes_preserve (fun n code => n.Serves r code)
    (fun _ _ _ h hp => hp.serves hr h) ?_ he⟩
  rw [Snapshot.instructions_ofCode]
  exact h.serves_above

theorem expandTo_exhausted (hr : r.Regular) (h : SLanguage.Regular r code) {e : Fault}
    (he : r.expandTo scope code degree = .error e) : Exhausted e := by
  obtain ⟨n', he⟩ := expandTo_error he
  have hs : (above code).Serves r (Snapshot.ofCode code).instructions := by
    rw [Snapshot.instructions_ofCode]
    exact h.serves_above
  rcases passes_error (fun n code => n.Serves r code) (fun _ _ _ h hp => hp.serves hr h) hs he with
    hx | ⟨n, code, h, i, hi, v, c, site, hc, hn, -⟩
  · exact hx
  · have hk := (h.regular.fits i hi).known c.name (by
      rw [Instruction.callNames, Instruction.call?, hc]
      exact List.mem_cons_self ..)
    rw [contains, hn] at hk; cases hk

end Registry

namespace Program

/-- No instruction, in the program or in a body, stands at the exit. -/
def ExitFree (p : Program) : Prop :=
  (∀ i ∈ p.instructions, i.label ≠ .exit) ∧
    ∀ f ∈ p.functions.functions, ∀ i ∈ f.body, i.label ≠ .exit

instance (p : Program) : Decidable p.ExitFree := inferInstanceAs (Decidable (_ ∧ _))

theorem WellFormed.regular {p : Program} (h : p.WellFormed) (hx : p.ExitFree) :
    SLanguage.Regular p.functions p.instructions ∧ p.functions.Regular := by
  refine ⟨⟨h.main, hx.1⟩, fun name f hf => ?_⟩
  have hm : f ∈ p.functions.functions :=
    Registry.mem_functions_iff.mpr (by rw [Registry.name_of_get? hf]; exact hf)
  exact ⟨h.bodies f hm, hx.2 f hm⟩

theorem WellFormed.isValid_expandTo {p : Program} (h : p.WellFormed) (hx : p.ExitFree)
    {degree : Nat} {s : Snapshot} (hs : p.expandTo degree = .ok s) :
    ({ p with instructions := s.instructions } : Program).isValid = true := by
  obtain ⟨hcode, hr⟩ := h.regular hx
  obtain ⟨n, hn⟩ := Registry.expandTo_serves hr hcode hs
  exact isValid_iff.mpr ⟨hn.regular.toWellFormed, h.bodies, h.acyclic⟩

/-- At every degree a valid program is valid again, or its names have run out. -/
theorem isValid_at_degree (p : Program) (hv : p.isValid = true) (hx : p.ExitFree) (degree : Nat) :
    (∃ kind, p.expandTo degree = .error (.namesExhausted kind)) ∨
    (∃ s, p.expandTo degree = .ok s ∧
      ({ p with instructions := s.instructions } : Program).isValid = true) := by
  have hw := isValid_iff.mp hv
  cases he : p.expandTo degree with
  | error e =>
    obtain ⟨hcode, hr⟩ := hw.regular hx
    obtain ⟨kind, rfl⟩ := Registry.expandTo_exhausted hr hcode he
    exact .inl ⟨kind, rfl⟩
  | ok s => exact .inr ⟨s, rfl, hw.isValid_expandTo hx he⟩

theorem isValid_demo_at_three : Demo.program.isValid = true ∧ Demo.program.ExitFree ∧
    ∃ s, Demo.program.expandTo 3 = .ok s ∧
      ({ Demo.program with instructions := s.instructions } : Program).isValid = true := by
  have hv : Demo.program.isValid = true := by decide +kernel
  have hx : Demo.program.ExitFree := by decide +kernel
  have hok : (Demo.program.expandTo 3).isOk = true := by decide +kernel
  refine ⟨hv, hx, ?_⟩
  rcases isValid_at_degree Demo.program hv hx 3 with ⟨kind, h⟩ | h
  · rw [h] at hok; cases hok
  · exact h

end Program

end SLanguage
