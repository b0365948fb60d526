import Mathlib.Order.BoundedOrder.Basic
import Mathlib.Order.MinMax
import SLanguage.Proofs.Degree
import SLanguage.Proofs.Prediction

/-!
# What a machine must be able to do

The tier that a sequence requires is known through its upper bounds: `requiredFor code ≤ t` exactly
if `t` runs every instruction of it (`Tier.requiredFor_le_iff`), and that is when the scan for an
unsupported one finds nothing. A block needs no more than the instruction it replaces
(`Template.minimumFor_le`), so no pass raises the tier, and a machine that is let through at some
degree is let through at every higher one (`Program.unsupported_of_le`).
-/

namespace SLanguage

/-! ## Scans of a sequence -/

namespace Tier

variable {t : Tier} {code : List Instruction}

theorem rank_injective : Function.Injective rank := by
  intro a b h
  cases a <;> cases b <;> first | rfl | cases h

instance : LinearOrder Tier := LinearOrder.lift' rank rank_injective

instance : BoundedOrder Tier where
  bot := one
  bot_le t := by cases t <;> decide
  top := four
  le_top t := by cases t <;> decide

theorem supports_iff {o : Operation} : t.supports o = true ↔ minimumFor o ≤ t := decide_eq_true_iff

theorem requiredFor_le_iff : requiredFor code ≤ t ↔ ∀ i ∈ code, minimumFor i.operation ≤ t := by
  have fold : ∀ (tiers : List Tier) (least : Tier),
      tiers.foldl max least ≤ t ↔ least ≤ t ∧ ∀ u ∈ tiers, u ≤ t := by
    intro tiers
    induction tiers with
    | nil => simp
    | cons u rest ih =>
      intro least
      rw [List.foldl_cons, ih, max_le_iff, List.forall_mem_cons, and_assoc]
  rw [requiredFor, fold, List.forall_mem_map]
  exact and_iff_right bot_le

/-- At this position stands an operation that the tier does not run. -/
def Refuses (t : Tier) (code : List Instruction) (position : Nat) (o : Operation) : Prop :=
  1 ≤ position ∧ ∃ i, code[position - 1]? = some i ∧ i.operation = o ∧ t.supports o = false

theorem firstUnsupported_eq_none_iff :
    t.firstUnsupported code = none ↔ requiredFor code ≤ t := by
  rw [firstUnsupported, List.findSome?_eq_none_iff, requiredFor_le_iff]
  constructor
  · intro h i hi
    obtain ⟨k, hk⟩ := List.getElem?_of_mem hi
    have := h (i, 1 + k) (List.mk_add_mem_zipIdx_iff_getElem?.mpr hk)
    by_contra hn
    rw [← supports_iff] at hn
    simp [hn] at this
  · intro h x hx
    have := supports_iff.mpr (h x.1 (List.fst_mem_of_mem_zipIdx hx))
    simp [this]

theorem refuses_of_firstUnsupported {position : Nat} {o : Operation}
    (h : t.firstUnsupported code = some (position, o)) :
    t.Refuses code position o ∧ ∀ q o', t.Refuses code q o' → position ≤ q := by
  obtain ⟨before, ⟨i, k⟩, after, hsplit, hi, hbefore⟩ := List.findSome?_eq_some_iff.mp h
  have hget (j : Nat) : (before ++ (i, k) :: after)[j]? = code[j]?.map (·, 1 + j) := by
    rw [← hsplit, List.getElem?_zipIdx]
  have hk : code[before.length]? = some i ∧ k = 1 + before.length := by
    have := hget before.length
    rw [List.getElem?_append_right (Nat.le_refl _), Nat.sub_self, List.getElem?_cons_zero] at this
    obtain ⟨i', hi', e⟩ := Option.map_eq_some_iff.mp this.symm
    cases e
    exact ⟨hi', rfl⟩
  obtain ⟨hcode, rfl⟩ := hk
  by_cases hs : t.supports i.operation = true
  · simp [hs] at hi
  simp only [hs, if_false, Bool.false_eq_true, Option.some.injEq, Prod.mk.injEq] at hi
  obtain ⟨rfl, rfl⟩ := hi
  refine ⟨⟨Nat.le_add_right _ _, i, ?_, rfl, by simpa using hs⟩, ?_⟩
  · rw [Nat.add_sub_cancel_left]
    exact hcode
  · rintro q o' ⟨hq, j, hj, rfl, hno⟩
    by_contra hlt
    have hm := hget (q - 1)
    rw [List.getElem?_append_left (by omega), hj] at hm
    have := hbefore _ (List.mem_of_getElem? hm)
    simp [hno] at this

/-- The scan stops at the first position that the tier refuses. -/
theorem firstUnsupported_eq_some_iff {position : Nat} {o : Operation} :
    t.firstUnsupported code = some (position, o) ↔
      t.Refuses code position o ∧ ∀ q o', t.Refuses code q o' → position ≤ q := by
  refine ⟨refuses_of_firstUnsupported, ?_⟩
  rintro ⟨hr, hleast⟩
  cases hf : t.firstUnsupported code with
  | none =>
    obtain ⟨-, i, hi, rfl, hno⟩ := hr
    rw [firstUnsupported_eq_none_iff, requiredFor_le_iff] at hf
    rw [supports_iff.mpr (hf i (List.mem_of_getElem? hi))] at hno
    cases hno
  | some found =>
    obtain ⟨q, o'⟩ := found
    obtain ⟨hr', hleast'⟩ := refuses_of_firstUnsupported hf
    obtain rfl : q = position := Nat.le_antisymm (hleast' _ _ hr) (hleast _ _ hr')
    obtain ⟨-, i, hi, rfl, -⟩ := hr
    obtain ⟨-, j, hj, rfl, -⟩ := hr'
    rw [hi] at hj
    cases hj
    rfl

end Tier

/-! ## Blocks and passes -/

/-- No instruction of a block needs a higher tier than the one it stands for. -/
theorem Template.minimumFor_le {r : Registry} {i : Instruction} {works : List Variable}
    {labels : List Label} {block : List Instruction} (h : Template r i works labels block) :
    ∀ j ∈ block, Tier.minimumFor j.operation ≤ Tier.minimumFor i.operation := by
  cases h with
  | basic _ => exact fun j hj => List.mem_singleton.mp hj ▸ Nat.le_refl _
  | quote _ _ => exact fun j _ => le_top
  | assignConstant =>
    refine Block.forall_mem_assignConstant ?_ ?_ <;>
      (simp only [Instruction.operation, Command.operation]; decide)
  | jumpEqualConstant =>
    refine Block.forall_mem_jumpEqualConstant ?_ ?_ ?_ ?_ ?_ ?_ <;>
      (simp only [Instruction.operation, Command.operation]; decide)
  | _ =>
    simp only [Block.zero, Block.goto, Block.assignSelf, Block.assign, Block.jumpZero,
      Block.jumpEqualSelf, Block.jumpEqualVariable, Block.jumpEqualCall, List.forall_mem_cons,
      Instruction.operation, Command.operation]
    decide

theorem Pieces.requiredFor_le {r : Registry} {n n' : SLanguage.Names} {ps : List Piece}
    (hp : Pieces r n n' ps) {t : Tier} (h : Tier.requiredFor (ps.map (·.instruction)) ≤ t) :
    Tier.requiredFor (ps.flatMap (·.block)) ≤ t := by
  rw [Tier.requiredFor_le_iff] at h ⊢
  intro j hj
  obtain ⟨p, hm, hj⟩ := List.mem_flatMap.mp hj
  exact le_trans ((hp.template hm).minimumFor_le j hj) (h _ (List.mem_map.mpr ⟨p, hm, rfl⟩))

namespace Registry

variable {r : Registry} {scope : Scope} {code : List Instruction}

/-- More passes require no higher tier. -/
theorem requiredTier_of_le {d d' : Nat} (hd : d ≤ d') {s' : Snapshot}
    (h : r.expandTo scope code d' = .ok s') :
    ∃ s, r.expandTo scope code d = .ok s ∧ s'.requiredTier ≤ s.requiredTier := by
  obtain ⟨s, n, n', hs, h⟩ := exists_expandTo_of_le hd h
  refine ⟨s, hs, ?_⟩
  exact passes_preserve (fun _ code => Tier.requiredFor code ≤ s.requiredTier)
    (fun _ _ _ h hp => hp.requiredFor_le h) (Nat.le_refl _) h

/-- Expansion fails for want of names, or at a call to an unknown function. -/
theorem expandTo_error_cases {degree : Nat} {e : Fault}
    (h : r.expandTo scope code degree = .error e) :
    Exhausted e ∨ ∃ name site, e = .unknownFunction name site := by
  obtain ⟨n', h⟩ := expandTo_error h
  rcases passes_error (fun _ _ => True) (fun _ _ _ _ _ => trivial) trivial h with
    hx | ⟨-, -, -, i, -, v, c, site, -, -, e⟩
  · exact .inl hx
  · exact .inr ⟨c.name, site, e⟩

end Registry

/-! ## Runs -/

namespace Program

variable {p : Program} {q : Request}

/-- The machine that the request asks for is refused. -/
def Unsupported (p : Program) (q : Request) : Prop :=
  ∃ bound o t position, p.run bound q = .failed (.unsupportedOperation o t position)

/-- What the check predicts of a sequence is never that a machine lacks an operation. -/
theorem not_unsupported_of_predicts {e : Fault} (h : p.Predicts e) {o : Operation} {t : Tier}
    {position : Nat} : e ≠ .unsupportedOperation o t position := by
  rintro rfl
  exact h

theorem prepare_eq_unsupported_iff {o : Operation} {t : Tier} {position : Nat} :
    p.prepare q = .error (.unsupportedOperation o t position) ↔ t = q.tier ∧
      ∃ s, p.expandTo q.degree = .ok s ∧
        q.tier.firstUnsupported s.instructions = some (position, o) := by
  rw [prepare]
  cases hs : p.expandTo q.degree with
  | error e =>
    have he : e ≠ .unsupportedOperation o t position := by
      rcases Registry.expandTo_error_cases hs with ⟨kind, rfl⟩ | ⟨name, site, rfl⟩ <;>
        exact Fault.noConfusion
    simp [bind, Except.bind, he]
  | ok s =>
    simp only [bind, Except.bind, Except.ok.injEq, exists_eq_left']
    cases hf : q.tier.firstUnsupported s.instructions with
    | some found =>
      obtain ⟨place, operation⟩ := found
      simp only [throw, throwThe, MonadExceptOf.throw, Except.error.injEq,
        Fault.unsupportedOperation.injEq, Option.some.injEq, Prod.mk.injEq]
      tauto
    | none =>
      have he (e : Fault) (h : Routine.ofCode s.instructions .program = .error e) :
          e ≠ .unsupportedOperation o t position :=
        not_unsupported_of_predicts
          (predicts_of_ofCode (p := { p with instructions := s.instructions }) .main h)
      simpa using fun h => he _ h rfl

/-- Only the gate before the run refuses a machine, and it does so for the first operation that the
machine does not have. -/
theorem run_eq_unsupported_iff {bound : Nat} {o : Operation} {t : Tier} {position : Nat} :
    p.run bound q = .failed (.unsupportedOperation o t position) ↔ t = q.tier ∧
      ∃ s, p.expandTo q.degree = .ok s ∧
        q.tier.firstUnsupported s.instructions = some (position, o) := by
  rw [← prepare_eq_unsupported_iff, run]
  cases hq : p.prepare q with
  | error e =>
    simp only [Bounded.ofExcept, Bounded.failed_bind, Bounded.failed.injEq, Except.error.injEq]
  | ok routine =>
    obtain ⟨s, -, -, hr⟩ := prepare_ok hq
    have he (e : Fault) (h : routine.run p.functions bound q.inputs = .failed e) :
        e ≠ .unsupportedOperation o t position :=
      not_unsupported_of_predicts
        (predicts_of_run (p := { p with instructions := s.instructions }) hr h)
    simpa [Bounded.ofExcept] using fun h => he _ h rfl

/-- A machine is refused exactly where the sequence of the request requires more. -/
theorem unsupported_iff :
    p.Unsupported q ↔ ∃ s, p.expandTo q.degree = .ok s ∧ ¬ s.requiredTier ≤ q.tier := by
  simp only [Unsupported, run_eq_unsupported_iff]
  constructor
  · rintro ⟨-, o, t, position, rfl, s, hs, hf⟩
    refine ⟨s, hs, fun h => ?_⟩
    rw [Tier.firstUnsupported_eq_none_iff.mpr h] at hf
    cases hf
  · rintro ⟨s, hs, h⟩
    obtain ⟨⟨position, o⟩, hf⟩ := Option.ne_none_iff_exists'.mp
      fun hf => h (Tier.firstUnsupported_eq_none_iff.mp hf)
    exact ⟨0, o, q.tier, position, rfl, s, hs, hf⟩

theorem unsupported_of_le {inputs : List Value} {tier : Tier} {d d' : Nat} (hd : d ≤ d')
    (h : p.Unsupported ⟨inputs, d', tier⟩) : p.Unsupported ⟨inputs, d, tier⟩ := by
  obtain ⟨s', hs', hno⟩ := unsupported_iff.mp h
  obtain ⟨s, hs, hle⟩ := Registry.requiredTier_of_le hd hs'
  exact unsupported_iff.mpr ⟨s, hs, fun h => hno (le_trans hle h)⟩

/-- A higher degree asks for no more of the machine. The snapshots require less and less, the scan
for an unsupported operation agrees with what a sequence requires and finds the first one, and a
run on a machine that is not refused at some degree is not refused at a higher one. -/
theorem gate_antitone (p : Program) :
    (∀ d d' s s', d ≤ d' → p.expandTo d = .ok s → p.expandTo d' = .ok s' →
      s'.requiredTier ≤ s.requiredTier) ∧
    (∀ (t : Tier) code,
      (t.firstUnsupported code = none ↔ Tier.requiredFor code ≤ t) ∧
      ∀ position o, t.firstUnsupported code = some (position, o) ↔
        t.Refuses code position o ∧ ∀ k o', t.Refuses code k o' → position ≤ k) ∧
    ∀ inputs tier d d', d ≤ d' → ¬ p.Unsupported ⟨inputs, d, tier⟩ →
      ¬ p.Unsupported ⟨inputs, d', tier⟩ := by
  refine ⟨fun d d' s s' hd hs hs' => ?_,
    fun t code => ⟨Tier.firstUnsupported_eq_none_iff,
      fun position o => Tier.firstUnsupported_eq_some_iff⟩,
    fun inputs tier d d' hd h h' => h (unsupported_of_le hd h')⟩
  obtain ⟨s₀, hs₀, hle⟩ := Registry.requiredTier_of_le hd hs'
  cases hs.symm.trans hs₀
  exact hle

end Program

end SLanguage
