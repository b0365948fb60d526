import SLanguage.Proofs.CallBlock
import SLanguage.Proofs.Provenance

/-!
# The block of an instruction without a call on its own

A run that starts at the first instruction of a block leaves it off its end or by a jump, to the
target of the instruction or to any label that does not stand in the block (`Routine.leave`). The
target may be the label of the block itself, and then the run leaves it just where it could go on.

A block does what its instruction does wherever it stands (`Template.realizes`). To see how it is
left, it is enclosed: the label that may be the target is taken away, and an instruction is put
behind the end (`Encloses`). There a run that comes to the end, or to the jump, has taken no other
way out before, and each of its steps is a step of the block (`Encloses.leave_of_moves`). So the
block is left as the instruction goes on, and it can be entered again (`Instruction.PerformedBy`).
-/

namespace SLanguage

open Names

/-! ## Leaving a block -/

namespace Routine

/-- How a run leaves a block: the jump that leads out of it, or `next` off its end, and the frame
then. A jump to the target leads out even if the target stands in the block. -/
def leave (p : Routine) (r : Registry) (invoke : Invoke) (target? : Option Label) :
    (bound : Nat) → State → Bounded (Signal × Frame)
  | 0, _ => .unfinished
  | bound + 1, s =>
    match p.stepWith r invoke s with
    | .halted => .done (.next, s.frame)
    | .took report next =>
      if report.signal = .halt ∨ target?.map .goto = some report.signal then
        .done (report.signal, next.frame)
      else p.leave r invoke target? bound next
    -- the label stands nowhere in the block
    | .failed (.unresolvedLabel l _) next => .done (.jump l, next.frame)
    | .failed e _ => .failed e
    | .unfinished => .unfinished

end Routine

theorem Command.Executes.execute {r : Registry} {c : Command} {f f' : Frame} {signal : Signal}
    (h : c.Executes r f f' signal) (hc : c.call? = none) (evaluate : Call → Bounded Value) :
    c.execute evaluate f = .done (f', signal) := by
  obtain ⟨w, -, hx⟩ := h
  rw [← hx]
  refine execute_congr fun call hcall => ?_
  rw [hc] at hcall
  cases hcall

theorem Command.target?_of_goto {c : Command} {evaluate : Call → Bounded Value} {f f' : Frame}
    {l : Label} (h : c.execute evaluate f = .done (f', .goto l)) : c.target? = some l := by
  cases l with
  | exit => exact execute_halt h
  | _ => exact (execute_jump h).1

/-- The sequence has the commands of the block and an instruction behind them. Its labels stand
where they stand in the block, and the target is none of them. -/
structure Encloses (target? : Option Label) (block host : List Instruction) : Prop where
  length : host.length = block.length + 1
  behind : host[block.length]? = some ⟨.empty, .neutral .result⟩
  inside : ∀ k j, k < block.length → host[k]? = some j → ∃ i, block[k]? = some i ∧
    i.command = j.command ∧ (j.label.isNamed = true → i.label = j.label)
  away : ∀ t, target? = some t → t ∉ attached host

namespace Encloses

variable {r r' : Registry} {invoke : Invoke} {target? : Option Label}
  {block host : List Instruction} {scope : Scope} {p : Routine} {s : State} {c c' : Spot}

section
variable (h : Encloses target? block host)
include h

theorem le_of_getElem? {k : Nat} {j : Instruction} (hj : host[k]? = some j) :
    k ≤ block.length := by
  have hlt := (List.getElem?_eq_some_iff.mp hj).1
  rw [h.length] at hlt
  exact Nat.le_of_lt_succ hlt

/-- From behind the block a run leads away. -/
theorem lt_of_moves (hm : Moves r host c c') (hle : c'.1 ≤ block.length) : c.1 < block.length := by
  obtain ⟨pc, g⟩ := c'
  obtain ⟨i, signal, hi, ⟨w, -, hx⟩, hg⟩ := hm
  refine Nat.lt_of_le_of_ne (h.le_of_getElem? hi) fun e => ?_
  rw [e, h.behind] at hi
  cases hi
  cases hx
  cases hg
  rw [e] at hle
  exact Nat.not_succ_le_self _ hle

/-- Control goes in the block as it goes in the host, as long as it does not leave the block. -/
theorem goes {next pc : Nat} {signal : Signal} (hg : Goes host next signal pc)
    (hle : pc ≤ block.length) : Goes block next signal pc ∧
      ¬ (signal = .halt ∨ target?.map .goto = some signal) := by
  cases hg with
  | next =>
    refine ⟨.next, ?_⟩
    rintro (hh | ht)
    · cases hh
    · obtain ⟨t, -, ht⟩ := Option.map_eq_some_iff.mp ht
      cases t <;> cases ht
  | halt => rw [h.length] at hle; omega
  | @jump l _ j hn hj hl =>
    have hlt : pc < block.length := by
      refine Nat.lt_of_le_of_ne hle fun e => ?_
      rw [e, h.behind] at hj
      cases hj
      rw [← hl] at hn
      cases hn
    obtain ⟨i, hi, -, hlabel⟩ := h.inside pc j hlt hj
    refine ⟨.jump hn hi ((hlabel (hl ▸ hn)).trans hl), ?_⟩
    rintro (hh | ht)
    · cases hh
    · obtain ⟨t, htarget, hgoto⟩ := Option.map_eq_some_iff.mp ht
      obtain ⟨rfl, -⟩ := Command.goto_eq_jump hgoto
      exact h.away t htarget (mem_attached.mpr ⟨hn, j, List.mem_of_getElem? hj, hl⟩)

end

section
variable (h : Encloses target? block host) (hp : Routine.ofCode block scope = .ok p)
  (hcalls : ∀ i ∈ block, i.call? = none)
include h hp hcalls

/-- What is executed in the host is executed in the block, and charged there. -/
theorem charged_of_executes (r : Registry) (invoke : Invoke) {j : Instruction} {f : Frame}
    {signal : Signal} (hlt : c.1 < block.length) (hj : host[c.1]? = some j)
    (hx : j.command.Executes r' c.2 f signal) (hs : s.At block c.1) (hf : s.frame = c.2) :
    ∃ cost charged, State.frame charged = f ∧ charged.pointer = c.1 ∧
      (∀ s', p.follow charged signal = .ok s' →
        p.stepWith r invoke s = .took ⟨s.position, signal, cost, s'.halted⟩ s') ∧
      ∀ e, p.follow charged signal = .error e → p.stepWith r invoke s = .failed e charged := by
  obtain ⟨i, hi, hcommand, -⟩ := h.inside _ j hlt hj
  have hcall := hcalls i (List.mem_of_getElem? hi)
  have hground : ∀ n ∈ i.callNames, r.Grounded n := by
    rw [Instruction.callNames, hcall]
    exact List.forall_mem_nil _
  rw [← hcommand, ← hf] at hx
  exact Routine.stepWith_charged hp hs hi hground (hx.execute hcall _)

/-- A step of the host that stays in the block is a step of the block. -/
theorem leave_of_moves (r : Registry) (invoke : Invoke) (hm : Moves r' host c c')
    (hle : c'.1 ≤ block.length) (hs : s.At block c.1) (hf : s.frame = c.2) :
    ∃ s', s'.At block c'.1 ∧ s'.frame = c'.2 ∧
      ∀ bound, p.leave r invoke target? (bound + 1) s = p.leave r invoke target? bound s' := by
  have hlt := h.lt_of_moves hm hle
  obtain ⟨j, signal, hj, hx, hg⟩ := hm
  obtain ⟨hg, hstay⟩ := h.goes hg hle
  obtain ⟨cost, charged, hcharged, hpt, hok, -⟩ :=
    h.charged_of_executes hp hcalls r invoke hlt hj hx hs hf
  obtain ⟨s', hfollow, hframe, hat⟩ := Routine.follow_of_goes hp hpt hg
  refine ⟨s', hat, hframe.trans hcharged, fun bound => ?_⟩
  rw [Routine.leave, hok s' hfollow]
  exact if_neg hstay

/-- A jump to the target leaves the block, whether the target stands there or not. -/
theorem leave_of_departs {t : Label} (ht : target? = some t) {Q : Frame → Prop}
    (hd : Departs r' host t Q c) (hs : s.At block c.1) (hf : s.frame = c.2) :
    ∃ g, Q g ∧ ∀ bound, p.leave r invoke target? (bound + 1) s = .done (.goto t, g) := by
  obtain ⟨j, g, hj, hx, hg⟩ := hd
  have hlt : c.1 < block.length := by
    refine Nat.lt_of_le_of_ne (h.le_of_getElem? hj) fun e => ?_
    rw [e, h.behind] at hj
    cases hj
    obtain ⟨w, -, hx⟩ := hx
    cases t <;> cases hx
  obtain ⟨cost, charged, rfl, hpt, hok, herror⟩ :=
    h.charged_of_executes hp hcalls r invoke hlt hj hx hs hf
  refine ⟨charged.frame, hg, fun bound => ?_⟩
  cases hfollow : p.follow charged (.goto t) with
  | ok s' =>
    have hframe : s'.frame = charged.frame := (Routine.goes_of_follow hp hfollow hpt).1
    rw [Routine.leave, hok s' hfollow]
    dsimp only
    rw [if_pos (.inr (by rw [ht]; rfl)), hframe]
  | error e =>
    obtain ⟨l, hsignal, -, he⟩ := Routine.follow_error hfollow
    rw [Routine.leave, herror e hfollow, hsignal, he]

/-- A run in the host that comes to a way out of the block, but not past it, is a run of the block
that leaves it there. -/
theorem leave_of_reaches {P : Spot → Prop} {Q : Signal × Frame → Prop}
    (hP : ∀ c, P c → c.1 ≤ block.length ∧ ∀ s, s.At block c.1 → s.frame = c.2 →
      ∃ x, Q x ∧ ∀ bound, p.leave r invoke target? (bound + 1) s = .done x)
    (hr : Reaches r' host P c) (hs : s.At block c.1) (hf : s.frame = c.2) :
    ∃ x least, Q x ∧ ∀ bound, least ≤ bound → p.leave r invoke target? bound s = .done x := by
  induction hr generalizing s with
  | here hc =>
    obtain ⟨x, hx, hleave⟩ := (hP _ hc).2 s hs hf
    refine ⟨x, 1, hx, fun bound hb => ?_⟩
    obtain ⟨k, rfl⟩ := Nat.exists_eq_add_of_le' hb
    exact hleave k
  | @move c c' hm hr ih =>
    have hle : c'.1 ≤ block.length := by
      cases hr with
      | here hc => exact (hP _ hc).1
      | move hm _ =>
        obtain ⟨j, -, hj, -⟩ := hm
        exact h.le_of_getElem? hj
    obtain ⟨s', hat, hframe, hstep⟩ :=
      h.leave_of_moves hp hcalls r invoke hm hle hs hf
    obtain ⟨x, least, hx, hleave⟩ := ih hat hframe
    refine ⟨x, least + 1, hx, fun bound hb => ?_⟩
    obtain ⟨k, rfl⟩ := Nat.exists_eq_add_of_le' (Nat.le_of_add_left_le hb)
    rw [hstep k]
    exact hleave k (Nat.le_of_succ_le_succ hb)

end

theorem of_append {xs : List Instruction} (hlen : xs.length = block.length)
    (hin : ∀ (k : Nat) (j : Instruction), xs[k]? = some j → ∃ i, block[k]? = some i ∧
      i.command = j.command ∧ (j.label.isNamed = true → i.label = j.label))
    (haway : ∀ t, target? = some t → t ∉ attached xs) :
    Encloses target? block (xs ++ [⟨.empty, .neutral .result⟩]) where
  length := by rw [List.length_append, hlen]; rfl
  behind := by rw [← hlen, List.getElem?_concat_length]
  inside k j hk hj := by
    rw [List.getElem?_append_left (hlen ▸ hk)] at hj
    exact hin k j hj
  away t ht hm := by
    rw [attached_append, attached_empty, List.append_nil] at hm
    exact haway t ht hm

end Encloses

/-! ## Templates without a call -/

section
variable {r r' : Registry} {i : Instruction} {works : List Variable} {labels : List Label}
  {block : List Instruction}

/-- Without a call the functions do not matter. -/
theorem Template.of_plain (h : Template r i works labels block) (hc : i.call? = none) :
    Template r' i works labels block := by
  cases h with
  | basic h => exact .basic h
  | zeroFresh => exact .zeroFresh
  | zero h => exact .zero h
  | goto => exact .goto
  | assignConstant => exact .assignConstant
  | assignSelf => exact .assignSelf
  | assign h => exact .assign h
  | jumpZero => exact .jumpZero
  | jumpEqualConstant => exact .jumpEqualConstant
  | jumpEqualSelf => exact .jumpEqualSelf
  | jumpEqualVariable h => exact .jumpEqualVariable h
  | quote => cases hc
  | jumpEqualCall => cases hc

/-- The block of an instruction that jumps makes no use of its own label, unless that is the
target. -/
theorem Template.relabel (h : Template r i works labels block) (ht : i.target?.isSome = true)
    (l : Label) : Template r ⟨l, i.command⟩ works labels (Splice.relabelFirst l block) := by
  cases h with
  | basic h => exact .basic h
  | goto => exact .goto
  | jumpZero => exact .jumpZero
  | jumpEqualConstant => exact .jumpEqualConstant
  | jumpEqualSelf => exact .jumpEqualSelf
  | jumpEqualVariable h => exact .jumpEqualVariable h
  | jumpEqualCall => exact .jumpEqualCall
  | _ => cases ht

theorem Template.exists_encloses (h : Template r i works labels block) (hr : r.Regular)
    (hd : Drawn i works labels) (hw : Assignable block) (hx : i.label ≠ .exit)
    (ht : ∀ t, i.target? = some t → t ∉ labels) :
    ∃ host, Encloses i.target? block host ∧ Realizes r host i works 0 block.length := by
  have hseg (xs ys : List Instruction) : Seg (xs ++ ys) 0 xs := by
    intro k j hj
    rw [Nat.zero_add, List.getElem?_append_left (List.getElem?_eq_some_iff.mp hj).1]
    exact hj
  cases hsome : i.target? with
  | none =>
    have hreal := h.realizes hd hw hx (hseg block [⟨.empty, .neutral .result⟩])
    rw [Nat.zero_add] at hreal
    refine ⟨_, .of_append rfl (fun k j hj => ⟨j, hj, rfl, fun _ => rfl⟩) fun t ht => ?_, hreal⟩
    cases ht
  | some target =>
    have hbare := h.relabel (by rw [hsome]; rfl) .empty
    have hwbare : Assignable (Splice.relabelFirst .empty block) := by
      intro j hj v hv
      obtain ⟨i', hi', hcommand, -⟩ := Splice.mem_relabelFirst hj
      exact hw i' hi' v (hcommand ▸ hv)
    have hreal := hbare.realizes ⟨hd.nodup, hd.work, hd.new, hd.named⟩ hwbare Label.noConfusion
      (hseg _ [⟨.empty, .neutral .result⟩])
    have hlen := Splice.length_relabelFirst .empty block
    rw [Nat.zero_add, hlen] at hreal
    refine ⟨_, .of_append hlen (fun k j hj => ?_) fun t htarget hm => ?_, ⟨hreal.next, hreal.jump⟩⟩
    · cases block with
      | nil => cases hj
      | cons x rest =>
        cases k with
        | zero => cases hj; exact ⟨x, rfl, rfl, fun hn => by cases hn⟩
        | succ k => exact ⟨j, hj, rfl, fun _ => rfl⟩
    · cases htarget
      have hperm := hbare.attached_perm hr hd.named
      rw [attached_empty, List.nil_append] at hperm
      exact ht target hsome (hperm.mem_iff.mp hm)

theorem Template.call?_eq_none (h : Template r i works labels block) (hc : i.call? = none) :
    ∀ j ∈ block, j.call? = none := by
  intro j hj
  cases hjc : j.call? with
  | none => rfl
  | some c =>
    have hm : c.name ∈ j.callNames := by
      rw [Instruction.callNames, hjc]
      exact List.mem_cons_self ..
    have hnone : i.callNames = [] := by rw [Instruction.callNames, hc]; rfl
    rcases h.callNames j hj c.name hm with hi | ⟨a, ha, -⟩
    · rw [hnone] at hi
      cases hi
    · rw [hnone] at ha
      cases ha

/-- Only a basic instruction is its own block. -/
theorem Template.isBasic_of_singleton (h : Template r i works labels [i]) (hc : i.call? = none) :
    i.isBasic = true := by
  generalize hblock : [i] = block at h
  cases h with
  | basic hb => exact hb
  | quote => cases hc
  | jumpEqualCall => cases hc
  | _ =>
    simp [Block.zero, Block.goto, Block.assignConstant, Block.assignSelf, Block.assign,
      Block.jumpZero, Block.jumpEqualConstant, Block.jumpEqualSelf,
      Block.jumpEqualVariable] at hblock

end

/-! ## The block beside the instruction -/

namespace Instruction

/-- The fresh variables of a copy are at zero. -/
def Ready (i : Instruction) (fresh : Variable → Prop) (f : Frame) : Prop :=
  ∀ v w, i.command = .assign v w → ∀ z, fresh z → f.get z = 0

/-- Run from the state, the routine does what the instruction does: it is left by the jump that the
instruction makes, or off its end if the instruction goes on to the next one. All variables but the
fresh ones have the values that the instruction leaves, and the routine can be entered again. -/
def PerformedBy (i : Instruction) (fresh : Variable → Prop) (r : Registry) (p : Routine)
    (s : State) : Prop :=
  ∃ f signal, (∀ evaluate, i.command.execute evaluate s.frame = .done (f, signal)) ∧
    ∀ invoke, ∃ g least,
      (∀ bound, least ≤ bound → p.leave r invoke i.target? bound s = .done (signal, g)) ∧
      (∀ u, ¬ fresh u → g.get u = f.get u) ∧ i.Ready fresh g

end Instruction

section
variable {r : Registry} {i : Instruction} {works : List Variable} {labels : List Label}
  {block : List Instruction} {n n' : SLanguage.Names}

theorem Instruction.Ready.scratch (hd : Draws n n' works labels) {f : Frame}
    (h : i.Ready (n.NewVar n') f) : ∀ z ∈ i.scratch works, f.get z = 0 := by
  intro z hz
  rw [Instruction.scratch] at hz
  split at hz
  · next v w hcommand => exact h v w hcommand z (hd.works z hz)
  · cases hz

/-- What a block leaves is as ready as what it found. -/
theorem Instruction.Leaves.ready (hn : n.Covers i)
    (hv : ∀ v ∈ i.command.operands, v.isConstant = false) {f f' g : Frame} {signal : Signal}
    (hx : i.command.execute (fun _ => .done 0) f = .done (f', signal))
    (hf : i.Ready (n.NewVar n') f) (h : i.Leaves works f' g) : i.Ready (n.NewVar n') g := by
  intro v w hcommand z hz
  by_cases hm : z ∈ works
  · refine h.2 z ?_
    rw [Instruction.scratch, hcommand]
    exact hm
  · have hop : v ∈ i.command.operands := by
      rw [hcommand]
      exact List.mem_cons_self ..
    have hne : z ≠ v := hz.ne_old (hn.vars v (List.mem_append_left _ hop))
    rw [hcommand] at hx
    cases hx
    rw [h.1 z hm, f.get_set (hv v hop), if_neg hne]
    exact hf v w hcommand z hz

theorem Registry.regular_empty : Registry.empty.Regular := by
  intro name f hf
  cases hf

theorem Template.performedBy (h : Template .empty i works labels block)
    (hc : i.call? = none) (hd : Draws n n' works labels) (hn : n.Covers i)
    (hv : ∀ v ∈ i.command.operands, v.isConstant = false) (hx : i.label ≠ .exit) {scope : Scope}
    {p : Routine} (hp : Routine.ofCode block scope = .ok p) {s : State} (hzero : s.pointer = 0)
    (hh : s.halted = false) (hready : i.Ready (n.NewVar n') s.frame) :
    i.PerformedBy (n.NewVar n') r p s := by
  obtain ⟨host, henc, hreal⟩ := h.exists_encloses Registry.regular_empty
    (.of_new hd.workNodup hd.works hd.labels hn.vars) (Routine.assignable_of_ofCode hp) hx
    fun t ht hm => (hd.labels t hm).ne_old (hn.target t ht) rfl
  have hcalls := h.call?_eq_none hc
  have hat := State.at_first h.ne_nil hzero hh
  have hscratch := hready.scratch hd
  obtain ⟨f, signal, hexec⟩ := i.command.execute_total 0 s.frame
  have hexecutes : i.command.Executes .empty s.frame f signal := .plain hc hexec
  refine ⟨f, signal, hexecutes.execute hc, fun invoke => ?_⟩
  obtain ⟨x, least, ⟨rfl, hleaves⟩, hleave⟩ : ∃ x least, (x.1 = signal ∧ i.Leaves works f x.2) ∧
      ∀ bound, least ≤ bound → p.leave r invoke i.target? bound s = .done x := by
    rcases hexecutes.signal with rfl | ⟨l, rfl⟩
    · refine henc.leave_of_reaches hp hcalls ?_ (hreal.next _ _ hscratch hexecutes).reaches hat rfl
      rintro c ⟨hpc, hleaves⟩
      refine ⟨Nat.le_of_eq hpc, fun s hs hf => ⟨(.next, s.frame), ⟨rfl, hf ▸ hleaves⟩, ?_⟩⟩
      intro bound
      rw [Routine.leave, Routine.stepWith_eq_halted hs (Nat.le_of_eq hpc.symm)]
    · have ht : i.target? = some l := Command.target?_of_goto hexec
      refine henc.leave_of_reaches hp hcalls ?_ (hreal.jump _ _ l hscratch hexecutes) hat rfl
      intro c hdeparts
      refine ⟨?_, fun s hs hf => ?_⟩
      · obtain ⟨j, -, hj, -⟩ := hdeparts
        exact henc.le_of_getElem? hj
      · obtain ⟨g, hleaves, hleave⟩ := henc.leave_of_departs hp hcalls ht hdeparts hs hf
        exact ⟨(.goto l, g), ⟨rfl, hleaves⟩, hleave⟩
  exact ⟨x.2, least, hleave, fun u hu => hleaves.1 u fun hm => hu (hd.works u hm),
    hleaves.ready hn hv hexec hready⟩

end

/-- Every block without a call does what its instruction does, and can be entered again. The
operands are no constants, the label is not the exit, and the names of the instruction are old. Then
the expansion yields a block, unless there are no more names to draw; and the block can be run from
its first instruction with any values in all variables, except that the counter of a copy has to be
at zero. -/
theorem Registry.plain_block_performs (r : Registry) {i : Instruction} (hb : i.isBasic = false)
    (hc : i.call? = none) (hv : ∀ v ∈ i.command.operands, v.isConstant = false)
    (hx : i.label ≠ .exit) {n : SLanguage.Names} (hn : n.Covers i) (site : Site) :
    (∃ e n', (r.expand site i).run n = .error e n' ∧ Exhausted e) ∨
    ∃ block n', (r.expand site i).run n = .ok (some block) n' ∧
      ∀ scope, ∃ p, Routine.ofCode block scope = .ok p ∧
        ∀ s : State, s.pointer = 0 → s.halted = false → i.Ready (n.NewVar n') s.frame →
          i.PerformedBy (n.NewVar n') r p s := by
  cases he : (r.expand site i).run n with
  | error e n' =>
    refine .inl ⟨e, n', rfl, (expand_error he).resolve_right ?_⟩
    rintro ⟨v, c, hcommand, -⟩
    rw [Instruction.call?, hcommand] at hc
    cases hc
  | ok b n' =>
    obtain ⟨works, labels, hd, ht⟩ := expand_ok he
    cases b with
    | none =>
      rw [ht.isBasic_of_singleton hc] at hb
      cases hb
    | some block =>
      replace ht : Template .empty i works labels block := ht.of_plain hc
      refine .inr ⟨block, n', rfl, fun scope => ?_⟩
      obtain ⟨p, hp⟩ := Routine.exists_ofCode (ht.nodup_attached regular_empty hd hn)
        (ht.writable regular_empty (fun w hw => (hd.works w hw).isConstant) hv) scope
      exact ⟨p, hp, fun s hzero hh hready => ht.performedBy hc hd hn hv hx hp hzero hh hready⟩

/-- `[L1] x1 <- x2` -/
def topCopy : Instruction := ⟨.named "L1", .assign (.input 1) (.input 2)⟩

/-- Before the first instruction, with 5 in `x1` and the largest value in `x2`. -/
def topmost : State where
  frame := .ofInputs [5, Word.top]
  pointer := 0
  cycles := 0
  steps := 0
  halted := false

theorem Registry.topCopy_performed :
    ∃ block n' p g, (Registry.empty.expand ⟨.program, 1⟩ topCopy).run (above [topCopy]) =
        .ok (some block) n' ∧
      Routine.ofCode block .program = .ok p ∧
      topCopy.Ready ((above [topCopy]).NewVar n') topmost.frame ∧
      (∃ bound, p.leave .empty (fun _ _ => .unfinished) none bound topmost = .done (.next, g)) ∧
      g.get (.input 1) = Word.top ∧ g.get (.input 2) = Word.top ∧
      ∀ z, (above [topCopy]).NewVar n' z → g.get z = 0 := by
  have hok : ((Registry.empty.expand ⟨.program, 1⟩ topCopy).run'
      (above [topCopy])).isSome = true := by decide +kernel
  rcases plain_block_performs .empty (i := topCopy) rfl rfl (by decide) (by decide)
    ((above_spec [topCopy]).2 _ (List.mem_cons_self ..)) ⟨.program, 1⟩ with
    ⟨e, n', he, -⟩ | ⟨block, n', hblock, hrun⟩
  · delta EStateM.run' at hok
    rw [he] at hok
    cases hok
  · have hready : topCopy.Ready ((above [topCopy]).NewVar n') topmost.frame := by
      rintro v w - z ⟨k, rfl, -⟩
      refine Frame.get_ofInputs_of_ne rfl fun j _ e => ?_
      cases e
    obtain ⟨p, hp, hperforms⟩ := hrun .program
    obtain ⟨f, signal, hexec, hleave⟩ := hperforms topmost rfl rfl hready
    obtain ⟨g, least, hdone, hget, hzero⟩ := hleave fun _ _ => .unfinished
    have hold (k : UInt32) : ¬ (above [topCopy]).NewVar n' (.input k) := by
      rintro ⟨_, e, -⟩
      cases e
    have hf := hexec fun _ => .unfinished
    cases hf
    refine ⟨block, n', p, g, hblock, hp, hready, ⟨least, hdone least (Nat.le_refl _)⟩, ?_, ?_,
      fun z hz => hzero _ _ rfl z hz⟩
    · rw [hget _ (hold 1)]
      decide +kernel
    · rw [hget _ (hold 2)]
      decide +kernel

end SLanguage
