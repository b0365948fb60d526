import SLanguage.Proofs.Steps

/-!
# Blocks do what their instruction does

`Seg code off block` says that the block stands in the sequence at `off`. `Realizes` is what is
proved of every block: where the instruction goes on to the next one, a run from the head of the
block takes at least one step and comes to its end; where the instruction jumps, the run comes to a
step that makes the same jump, whether the target stands anywhere or not. The frame differs from the
one after the instruction in drawn variables only. The drawn variable of a copy
(`Instruction.scratch`) has to be zero before, and is zero again after, so that a loop may come back
to the block.
-/

namespace SLanguage

variable {r : Registry} {code : List Instruction} {P Q : Spot → Prop}

/-- The part stands in the sequence at `off`. -/
def Seg {α : Type} (code : List α) (off : Nat) (part : List α) : Prop :=
  ∀ k i, part[k]? = some i → code[off + k]? = some i

section
variable {α : Type} {xs ys code : List α} {off : Nat} {i : α}

theorem Seg.head (h : Seg code off (i :: xs)) : code[off]? = some i :=
  h 0 i rfl

theorem Seg.tail (h : Seg code off (i :: xs)) : Seg code (off + 1) xs := by
  intro k j hj
  rw [Nat.add_assoc, Nat.add_comm 1]
  exact h (k + 1) j hj

theorem Seg.append (h : Seg code off (xs ++ ys)) :
    Seg code off xs ∧ Seg code (off + xs.length) ys := by
  constructor
  · intro k i hi
    have hlt := (List.getElem?_eq_some_iff.mp hi).1
    exact h k i (by rw [List.getElem?_append_left hlt]; exact hi)
  · intro k i hi
    rw [Nat.add_assoc]
    refine h (xs.length + k) i ?_
    rw [List.getElem?_append_right (Nat.le_add_right _ _), Nat.add_sub_cancel_left]
    exact hi

end

/-! ## Single steps -/

/-- A run that takes a step before it comes to a spot with `P`. -/
def Advances (r : Registry) (code : List Instruction) (P : Spot → Prop) (c : Spot) : Prop :=
  ∃ c', Moves r code c c' ∧ Reaches r code P c'

theorem Advances.reaches {c : Spot} (h : Advances r code P c) : Reaches r code P c := by
  obtain ⟨c', hm, hr⟩ := h
  exact .move hm hr

theorem Advances.mono {c : Spot} (h : Advances r code P c) (hk : ∀ c, P c → Q c) :
    Advances r code Q c := by
  obtain ⟨c', hm, hr⟩ := h
  exact ⟨c', hm, hr.mono hk⟩

theorem Reaches.advances {c : Spot} (h : Reaches r code P c) (hn : ¬ P c) :
    Advances r code P c := by
  cases h with
  | here h => exact absurd h hn
  | move hm hr => exact ⟨_, hm, hr⟩

/-- A run that ends is shorter from a spot to which it has advanced. -/
theorem Ends.after_advances (hu : (attached code).Nodup) {c : Spot} {n : Nat} {g : Frame}
    (he : Ends r code n c g) (h : Advances r code P c) :
    ∃ m c', m < n ∧ P c' ∧ Ends r code m c' g := by
  obtain ⟨c1, hm, hr⟩ := h
  cases he with
  | stop ho => exact absurd hm.lt (Nat.not_lt.mpr ho)
  | move hm' he =>
    rw [hm'.unique hu hm] at he
    obtain ⟨m, c', hle, hc, he⟩ := he.after hu hr
    exact ⟨m, c', Nat.lt_succ_of_le hle, hc, he⟩

section
variable {pc pc' : Nat} {l : Label} {c : Command} {f f' : Frame}

/-- A command without a call that goes on to the next instruction. -/
theorem advances_next (hi : code[pc]? = some ⟨l, c⟩) (hc : c.call? = none)
    (hx : c.execute (fun _ => .done 0) f = .done (f', .next))
    (h : Reaches r code P (pc + 1, f')) : Advances r code P (pc, f) :=
  ⟨_, ⟨_, .next, hi, .plain hc hx, .next⟩, h⟩

/-- A conditional jump whose condition holds. -/
theorem advances_jump {t : Label} (hi : code[pc]? = some ⟨l, c⟩) (hc : c.call? = none)
    (hx : c.execute (fun _ => .done 0) f = .done (f, .gotoIf true t))
    (hg : Goes code (pc + 1) (.goto t) pc') (h : Reaches r code P (pc', f)) :
    Advances r code P (pc, f) :=
  ⟨_, ⟨_, .goto t, hi, .plain hc hx, hg⟩, h⟩

variable {v : Variable} {t : Label}

theorem advances_jumpNotZero_taken (hi : code[pc]? = some ⟨l, .jumpNotZero v t⟩)
    (hv : f.get v ≠ 0) (hg : Goes code (pc + 1) (.goto t) pc') (h : Reaches r code P (pc', f)) :
    Advances r code P (pc, f) :=
  advances_jump hi rfl (by rw [Command.execute, bne_iff_ne.mpr hv]) hg h

theorem advances_jumpNotZero_passed (hi : code[pc]? = some ⟨l, .jumpNotZero v t⟩)
    (hv : f.get v = 0) (h : Reaches r code P (pc + 1, f)) : Advances r code P (pc, f) :=
  advances_next hi rfl (by rw [Command.execute, hv]; rfl) h

theorem advances_jumpZero_taken (hi : code[pc]? = some ⟨l, .jumpZero v t⟩)
    (hv : f.get v = 0) (hg : Goes code (pc + 1) (.goto t) pc') (h : Reaches r code P (pc', f)) :
    Advances r code P (pc, f) :=
  advances_jump hi rfl (by rw [Command.execute, hv]; rfl) hg h

theorem advances_jumpZero_passed (hi : code[pc]? = some ⟨l, .jumpZero v t⟩)
    (hv : f.get v ≠ 0) (h : Reaches r code P (pc + 1, f)) : Advances r code P (pc, f) :=
  advances_next hi rfl (by rw [Command.execute, beq_false_of_ne hv]; rfl) h

theorem advances_goto (hi : code[pc]? = some ⟨l, .goto t⟩)
    (hg : Goes code (pc + 1) (.goto t) pc') (h : Reaches r code P (pc', f)) :
    Advances r code P (pc, f) :=
  advances_jump hi rfl rfl hg h

end

/-- The step at the spot jumps to `l`, and the frame after it has `P`. -/
def Departs (r : Registry) (code : List Instruction) (l : Label) (P : Frame → Prop) (c : Spot) :
    Prop :=
  ∃ i f, code[c.1]? = some i ∧ i.command.Executes r c.2 f (.goto l) ∧ P f

theorem departs_jump {pc : Nat} {l t : Label} {c : Command} {f : Frame} {P : Frame → Prop}
    (hi : code[pc]? = some ⟨l, c⟩) (hc : c.call? = none)
    (hx : c.execute (fun _ => .done 0) f = .done (f, .gotoIf true t)) (hf : P f) :
    Departs r code t P (pc, f) :=
  ⟨_, f, hi, .plain hc hx, hf⟩

/-- Where the target stands, the jump goes there. -/
theorem Reaches.advances_departs {l : Label} {P : Frame → Prop} {c : Spot}
    (h : Reaches r code (Departs r code l P) c) {next pc : Nat} (hg : Goes code next (.goto l) pc) :
    Advances r code (fun c => c.1 = pc ∧ P c.2) c := by
  induction h with
  | here h =>
    obtain ⟨i, f, hi, hx, hf⟩ := h
    exact ⟨(pc, f), ⟨i, _, hi, hx, hg.goto⟩, .here ⟨rfl, hf⟩⟩
  | move hm _ ih => exact ⟨_, hm, ih.reaches⟩

/-- A named label that stands in the sequence is a target. -/
theorem goes_label {l : Label} (hn : l.isNamed = true) {pc : Nat} {i : Instruction}
    (hi : code[pc]? = some i) (hl : i.label = l) (next : Nat) : Goes code next (.goto l) pc := by
  cases l with
  | named name => exact .jump hn hi hl
  | empty => cases hn
  | exit => cases hn

namespace Word

theorem increment_ne_zero (w : Word) : increment w ≠ 0 := by
  intro h
  have := toNat_increment w
  rw [h, toNat_top, UInt64.toNat_zero] at this
  omega

theorem toNat_pos {w : Word} (h : w ≠ 0) : 0 < w.toNat :=
  Nat.pos_of_ne_zero fun e => h (UInt64.toNat_inj.mp e)

end Word

namespace Frame

variable (f : Frame) {v : Variable} (hv : v.isConstant = false) (u : Variable)
include hv

theorem get_increment :
    (f.increment v).get u = if u = v then Word.increment (f.get v) else f.get u :=
  f.get_set hv _ u

theorem get_decrement :
    (f.decrement v).get u = if u = v then Word.decrement (f.get v) else f.get u :=
  f.get_set hv _ u

end Frame

/-- A row of increments. -/
theorem reaches_increases {off : Nat} {vs : List Variable} {f : Frame}
    (hs : Seg code off (vs.map (⟨.empty, .increase ·⟩)))
    (h : Reaches r code P (off + vs.length, vs.foldl Frame.increment f)) :
    Reaches r code P (off, f) := by
  induction vs generalizing off f with
  | nil => exact h
  | cons v rest ih =>
    refine (advances_next hs.head rfl rfl (ih hs.tail ?_)).reaches
    rw [Nat.add_assoc, Nat.add_comm 1]
    exact h

theorem Frame.toNat_get_increases {vs : List Variable} (hv : ∀ v ∈ vs, v.isConstant = false)
    (f : Frame) (u : Variable) :
    ((vs.foldl increment f).get u).toNat = min ((f.get u).toNat + vs.count u) Word.top.toNat := by
  induction vs generalizing f with
  | nil =>
    have := (f.get u).toNat_lt
    rw [List.foldl_nil, List.count_nil, Word.toNat_top]
    omega
  | cons v rest ih =>
    rw [List.foldl_cons, ih (fun w hw => hv w (.tail _ hw)), f.get_increment (hv v (.head _)),
      List.count_cons]
    by_cases hu : u = v
    · rw [if_pos hu, Word.toNat_increment, hu, if_pos (beq_self_eq_true v)]
      omega
    · rw [if_neg hu, if_neg fun e => hu (eq_of_beq e).symm]
      rfl

/-! ## What a block has to do -/

/-- The drawn variables that a block finds at zero and leaves at zero. -/
def Instruction.scratch (i : Instruction) (works : List Variable) : List Variable :=
  match i.command with
  | .assign _ _ => works
  | _ => []

/-- What a block may leave behind when the instruction leaves `f`. -/
def Instruction.Leaves (i : Instruction) (works : List Variable) (f g : Frame) : Prop :=
  (∀ u, u ∉ works → g.get u = f.get u) ∧ ∀ z ∈ i.scratch works, g.get z = 0

/-- From `off` the run does what the instruction does: it comes to `next` if the instruction goes
on, and makes the jump that the instruction makes. -/
structure Realizes (r : Registry) (code : List Instruction) (i : Instruction)
    (works : List Variable) (off next : Nat) : Prop where
  next : ∀ f f1, (∀ z ∈ i.scratch works, f.get z = 0) → i.command.Executes r f f1 .next →
    Advances r code (fun c => c.1 = next ∧ i.Leaves works f1 c.2) (off, f)
  jump : ∀ f f1 l, (∀ z ∈ i.scratch works, f.get z = 0) → i.command.Executes r f f1 (.goto l) →
    Reaches r code (Departs r code l (i.Leaves works f1)) (off, f)

theorem Signal.gotoIf_eq_next {b : Bool} {t : Label} (h : gotoIf b t = .next) : b = false := by
  cases b
  · rfl
  · cases t <;> cases h

theorem Signal.gotoIf_eq_goto {b : Bool} {t l : Label} (h : gotoIf b t = goto l) :
    b = true ∧ t = l := by
  cases b
  · cases l <;> cases h
  · cases t <;> cases l <;> cases h <;> exact ⟨rfl, rfl⟩

/-- A command goes on or jumps. -/
theorem Command.Executes.signal {c : Command} {f f' : Frame} {signal : Signal}
    (h : c.Executes r f f' signal) : signal = .next ∨ ∃ l, signal = .goto l := by
  obtain ⟨w, -, h⟩ := h
  cases signal with
  | next => exact .inl rfl
  | halt => exact .inr ⟨.exit, rfl⟩
  | jump l => exact .inr ⟨l, (Signal.goto_of_ne (execute_jump h).2).symm⟩

namespace Realizes

variable {i : Instruction} {works : List Variable} {off next : Nat}

/-- The run comes to where the instruction goes. -/
theorem advances (h : Realizes r code i works off next) {f f1 : Frame} {signal : Signal} {pc : Nat}
    (hz : ∀ z ∈ i.scratch works, f.get z = 0) (hx : i.command.Executes r f f1 signal)
    (hg : Goes code next signal pc) :
    Advances r code (fun c => c.1 = pc ∧ i.Leaves works f1 c.2) (off, f) := by
  rcases hx.signal with rfl | ⟨l, rfl⟩
  · cases hg
    exact h.next f f1 hz hx
  · exact (h.jump f f1 l hz hx).advances_departs hg

/-- A block for an instruction that never jumps. -/
theorem of_next (hi : ∀ x f, ∃ f1, i.command.execute (fun _ => .done x) f = .done (f1, .next))
    (h : ∀ f f1, (∀ z ∈ i.scratch works, f.get z = 0) → i.command.Executes r f f1 .next →
      Advances r code (fun c => c.1 = next ∧ i.Leaves works f1 c.2) (off, f)) :
    Realizes r code i works off next := by
  refine ⟨h, ?_⟩
  rintro f f1 l - ⟨x, -, hx⟩
  obtain ⟨f', hf⟩ := hi x f
  rw [hf] at hx
  cases l <;> cases hx

/-- A block for an instruction that jumps to `target` or goes on. -/
theorem of_jump (target : Label) (h : ∀ f f1 signal, i.command.Executes r f f1 signal →
      ∃ b, signal = .gotoIf b target ∧
        (b = true → Reaches r code (Departs r code target (i.Leaves works f1)) (off, f)) ∧
        (b = false → Advances r code (fun c => c.1 = next ∧ i.Leaves works f1 c.2) (off, f))) :
    Realizes r code i works off next := by
  refine ⟨fun f f1 _ hx => ?_, fun f f1 l _ hx => ?_⟩
  · obtain ⟨b, hb, -, hnext⟩ := h f f1 _ hx
    exact hnext (Signal.gotoIf_eq_next hb.symm)
  · obtain ⟨b, hb, hjump, -⟩ := h f f1 _ hx
    obtain ⟨htaken, rfl⟩ := Signal.gotoIf_eq_goto hb.symm
    exact hjump htaken

end Realizes

/-- A basic instruction is its own block. -/
theorem realizes_self {off : Nat} {i : Instruction} (hi : code[off]? = some i) :
    Realizes r code i [] off (off + 1) := by
  have hleaves (f : Frame) : i.Leaves [] f f := by
    refine ⟨fun _ _ => rfl, fun z hz => ?_⟩
    rw [Instruction.scratch] at hz
    split at hz <;> cases hz
  exact ⟨fun f f1 _ hx => ⟨(off + 1, f1), ⟨i, _, hi, hx, .next⟩, .here ⟨rfl, hleaves f1⟩⟩,
    fun f f1 l _ hx => .here ⟨i, f1, hi, hx, hleaves f1⟩⟩

namespace Block

variable {off : Nat} {l : Label} {v w z : Variable}

/-- The loop of a zero. -/
theorem reaches_zero {loop : Label} (hv : v.isConstant = false) (hn : loop.isNamed = true)
    (hs : Seg code off (zero v loop)) (f : Frame) :
    Reaches r code (fun c => c.1 = off + 2 ∧ ∀ u, c.2.get u = if u = v then 0 else f.get u)
      (off, f) := by
  induction hk : (f.get v).toNat using Nat.strongRecOn generalizing f with
  | ind k ih =>
    refine (advances_next hs.head rfl rfl ?_).reaches
    by_cases hz : (f.decrement v).get v = 0
    · refine (advances_jumpNotZero_passed hs.tail.head hz (.here ⟨rfl, fun u => ?_⟩)).reaches
      by_cases hu : u = v
      · rw [hu, if_pos rfl]; exact hz
      · rw [if_neg hu, f.get_decrement hv, if_neg hu]
    · refine (advances_jumpNotZero_taken hs.tail.head hz (goes_label hn hs.head rfl _) ?_).reaches
      have hd : (f.decrement v).get v = Word.decrement (f.get v) := by
        rw [f.get_decrement hv, if_pos rfl]
      have hlt : ((f.decrement v).get v).toNat < k := by
        have := Word.toNat_pos hz
        rw [hd, Word.toNat_decrement] at this ⊢
        omega
      refine (ih _ hlt (f.decrement v) rfl).mono ?_
      rintro c ⟨hpc, hget⟩
      refine ⟨hpc, fun u => ?_⟩
      rw [hget u]
      by_cases hu : u = v
      · rw [if_pos hu, if_pos hu]
      · rw [if_neg hu, if_neg hu, f.get_decrement hv, if_neg hu]

theorem realizes_zero {loop : Label} (hv : v.isConstant = false) (hn : loop.isNamed = true)
    (hs : Seg code off (zero v loop)) : Realizes r code ⟨l, .zero v⟩ [] off (off + 2) := by
  refine .of_next (fun _ _ => ⟨_, rfl⟩) ?_
  rintro f _ - ⟨x, -, hx⟩
  cases hx
  refine ((reaches_zero hv hn hs f).advances fun h => by have := h.1; simp at this).mono ?_
  rintro c ⟨hpc, hget⟩
  refine ⟨hpc, fun u _ => ?_, List.forall_mem_nil _⟩
  rw [hget u, f.get_set hv]

theorem realizes_goto {target : Label} (hz : z.isConstant = false)
    (hs : Seg code off (goto l target z)) :
    Realizes r code ⟨l, .goto target⟩ [z] off (off + 2) := by
  refine .of_jump target ?_
  rintro f _ _ ⟨x, -, hx⟩
  cases hx
  refine ⟨true, rfl, fun _ => ?_, fun h => by cases h⟩
  refine (advances_next hs.head rfl rfl (.here ?_)).reaches
  have hne : (f.increment z).get z ≠ 0 := by
    rw [f.get_increment hz, if_pos rfl]
    exact Word.increment_ne_zero _
  refine departs_jump hs.tail.head rfl (by rw [Command.execute, bne_iff_ne.mpr hne]) ?_
  refine ⟨fun u hu => ?_, List.forall_mem_nil _⟩
  rw [f.get_increment hz, if_neg fun e => hu (List.mem_singleton.mpr e)]

theorem realizes_assignConstant {k : Value} (hv : v.isConstant = false)
    (hs : Seg code off (assignConstant l v k)) :
    Realizes r code ⟨l, .assignConstant v k⟩ [] off (off + (k.toNat + 1)) := by
  refine .of_next (fun _ _ => ⟨_, rfl⟩) ?_
  rintro f _ - ⟨x, -, hx⟩
  cases hx
  refine advances_next hs.head rfl rfl ?_
  have hrow : Seg code (off + 1) ((List.replicate k.toNat v).map (⟨.empty, .increase ·⟩)) := by
    rw [List.map_replicate]
    exact hs.tail
  refine reaches_increases hrow (.here ⟨?_, fun u _ => ?_, List.forall_mem_nil _⟩)
  · rw [List.length_replicate]; omega
  · have hk := k.toNat_lt
    have hnc : ∀ x ∈ List.replicate k.toNat v, x.isConstant = false := fun x hx => by
      rw [(List.mem_replicate.mp hx).2]; exact hv
    refine UInt64.toNat_inj.mp ?_
    rw [Frame.toNat_get_increases hnc, f.get_set hv, f.get_set hv, Word.toNat_top]
    by_cases hu : u = v
    · rw [if_pos hu, if_pos hu, hu, List.count_replicate_self, UInt64.toNat_zero]
      omega
    · have := (f.get u).toNat_lt
      rw [if_neg hu, if_neg hu, List.count_eq_zero.mpr fun h => hu (List.mem_replicate.mp h).2]
      omega

theorem realizes_assignSelf (hv : v.isConstant = false) (hs : Seg code off (assignSelf l v)) :
    Realizes r code ⟨l, .assign v v⟩ [] off (off + 1) := by
  refine .of_next (fun _ _ => ⟨_, rfl⟩) ?_
  rintro f _ - ⟨x, -, hx⟩
  cases hx
  refine advances_next hs.head rfl rfl (.here ⟨rfl, fun u _ => ?_, List.forall_mem_nil _⟩)
  rw [f.get_set hv]
  by_cases hu : u = v
  · rw [if_pos hu, hu]
  · rw [if_neg hu]

/-- A loop that counts `v` down and each of `vs` up. -/
theorem reaches_pour {loop : Label} {vs : List Variable} (hv : v.isConstant = false)
    (hvs : ∀ u ∈ vs, u.isConstant = false) (hm : v ∉ vs) (hn : loop.isNamed = true)
    (hs : Seg code off (⟨loop, .decrease v⟩ ::
      (vs.map (⟨.empty, .increase ·⟩) ++ [⟨.empty, .jumpNotZero v loop⟩])))
    (f : Frame) (hpos : f.get v ≠ 0) :
    Reaches r code (fun c => c.1 = off + (vs.length + 2) ∧ c.2.get v = 0 ∧
      ∀ u, u ≠ v → (c.2.get u).toNat =
        min ((f.get u).toNat + (f.get v).toNat * vs.count u) Word.top.toNat) (off, f) := by
  induction hk : (f.get v).toNat using Nat.strongRecOn generalizing f with
  | ind k ih =>
    obtain ⟨hrow, hjump⟩ := hs.tail.append
    rw [List.length_map] at hjump
    refine (advances_next hs.head rfl rfl (reaches_increases hrow ?_)).reaches
    generalize hg : vs.foldl Frame.increment (f.decrement v) = g
    have hget (u : Variable) : (g.get u).toNat =
        min (((f.decrement v).get u).toNat + vs.count u) Word.top.toNat := by
      rw [← hg, Frame.toNat_get_increases hvs]
    have hkpos : 0 < k := hk ▸ Word.toNat_pos hpos
    have hgv : (g.get v).toNat = k - 1 := by
      have := (f.get v).toNat_lt
      rw [hget, f.get_decrement hv, if_pos rfl, Word.toNat_decrement, hk,
        List.count_eq_zero.mpr hm, Word.toNat_top]
      omega
    have hgu (u : Variable) (hu : u ≠ v) :
        (g.get u).toNat = min ((f.get u).toNat + vs.count u) Word.top.toNat := by
      rw [hget, f.get_decrement hv, if_neg hu]
    by_cases hz : g.get v = 0
    · refine (advances_jumpNotZero_passed hjump.head hz (.here ⟨by omega, hz, ?_⟩)).reaches
      intro u hu
      have hk1 : k = 1 := by
        rw [hz, UInt64.toNat_zero] at hgv
        omega
      rw [hgu u hu, hk1, Nat.one_mul]
    · refine (advances_jumpNotZero_taken hjump.head hz (goes_label hn hs.head rfl _) ?_).reaches
      refine (ih (k - 1) (by omega) g hz hgv).mono ?_
      rintro c ⟨hpc, hcv, hcu⟩
      refine ⟨hpc, hcv, fun u hu => ?_⟩
      have hmul : k * vs.count u = (k - 1) * vs.count u + vs.count u := by
        rw [← Nat.succ_mul]
        congr 1
        omega
      rw [hcu u hu, hgu u hu, hmul]
      omega

/-- The two loops of a copy, from the first on: `w` goes into `z`, then `z` into `v` and `w`. -/
theorem reaches_assign {drain restore done : Label} (hv : v.isConstant = false)
    (hw : w.isConstant = false) (hz : z.isConstant = false) (hvw : v ≠ w) (hzv : z ≠ v)
    (hzw : z ≠ w) (hdrain : drain.isNamed = true) (hrestore : restore.isNamed = true)
    (hs : Seg code off (assign l v w drain restore done z)) (f : Frame) (hpos : f.get w ≠ 0)
    (hfv : f.get v = 0) (hfz : f.get z = 0) :
    Reaches r code (fun c => c.1 = off + 10 ∧ c.2.get z = 0 ∧
      ∀ u, u ≠ z → c.2.get u = if u = v then f.get w else f.get u) (off + 3, f) := by
  have hseg : Seg code (off + 3) (⟨drain, .decrease w⟩ ::
      ([z].map (⟨.empty, .increase ·⟩) ++ [⟨.empty, .jumpNotZero w drain⟩])) :=
    hs.tail.tail.tail.append.1
  refine (reaches_pour hw (by simpa using hz) (by simpa using hzw.symm) hdrain hseg f hpos).bind ?_
  rintro ⟨_, g⟩ ⟨rfl, hgw, hg⟩
  have hgz : g.get z = f.get w := by
    have := (f.get w).toNat_lt
    refine UInt64.toNat_inj.mp ?_
    rw [hg z hzw, hfz, List.count_singleton_self, UInt64.toNat_zero, Word.toNat_top]
    omega
  have hgu (u : Variable) (huw : u ≠ w) (huz : u ≠ z) : g.get u = f.get u := by
    have := (f.get u).toNat_lt
    refine UInt64.toNat_inj.mp ?_
    rw [hg u huw, List.count_eq_zero.mpr (by simpa using huz), Word.toNat_top]
    omega
  have hseg' : Seg code (off + 6) (⟨restore, .decrease z⟩ ::
      ([v, w].map (⟨.empty, .increase ·⟩) ++ [⟨.empty, .jumpNotZero z restore⟩])) :=
    hs.tail.tail.tail.tail.tail.tail.append.1
  refine (reaches_pour hz (by simpa using ⟨hv, hw⟩) (by simpa using ⟨hzv, hzw⟩) hrestore hseg' g
    (by rw [hgz]; exact hpos)).mono ?_
  rintro c ⟨hpc, hcz, hc⟩
  refine ⟨hpc, hcz, fun u hu => UInt64.toNat_inj.mp ?_⟩
  have := (f.get w).toNat_lt
  have := (f.get u).toNat_lt
  rw [hc u hu, hgz, Word.toNat_top]
  by_cases huv : u = v
  · rw [if_pos huv, huv, hgu v hvw hzv.symm, hfv, UInt64.toNat_zero,
      show [v, w].count v = 1 by simp [hvw.symm]]
    omega
  by_cases huw : u = w
  · rw [if_neg huv, huw, hgw, UInt64.toNat_zero,
      show [v, w].count w = 1 by simp [hvw]]
    omega
  · rw [if_neg huv, hgu u huw hu, List.count_eq_zero.mpr (by simp [huv, huw])]
    omega

theorem realizes_assign {drain restore done : Label} (hv : v.isConstant = false)
    (hw : w.isConstant = false) (hz : z.isConstant = false) (hvw : v ≠ w) (hzv : z ≠ v)
    (hzw : z ≠ w) (hdrain : drain.isNamed = true) (hrestore : restore.isNamed = true)
    (hdone : done.isNamed = true) (hs : Seg code off (assign l v w drain restore done z)) :
    Realizes r code ⟨l, .assign v w⟩ [z] off (off + 11) := by
  refine .of_next (fun _ _ => ⟨_, rfl⟩) ?_
  rintro f _ hzero ⟨x, -, hx⟩
  cases hx
  have hfz : (f.set v 0).get z = 0 := by
    rw [f.get_set hv, if_neg hzv]
    exact hzero z (List.mem_singleton.mpr rfl)
  have hfw : (f.set v 0).get w = f.get w := by rw [f.get_set hv, if_neg hvw.symm]
  refine advances_next hs.head rfl rfl ?_
  by_cases hpos : (f.set v 0).get w = 0
  · refine (advances_jumpNotZero_passed (hs 1 _ rfl) hpos ?_).reaches
    refine (advances_goto (hs 2 _ rfl) (goes_label hdone (hs 10 _ rfl) rfl _) ?_).reaches
    refine (advances_next (hs 10 _ rfl) rfl rfl (.here ⟨rfl, fun u _ => ?_, ?_⟩)).reaches
    · rw [← hfw, hpos]
    · intro y hy
      rw [List.mem_singleton.mp hy]
      exact hfz
  · refine (advances_jumpNotZero_taken (hs 1 _ rfl) hpos
      (goes_label hdrain (hs 3 _ rfl) rfl _) ?_).reaches
    refine (reaches_assign hv hw hz hvw hzv hzw hdrain hrestore hs (f.set v 0) hpos
      (by rw [f.get_set hv, if_pos rfl]) hfz).bind ?_
    rintro ⟨_, g⟩ ⟨rfl, hgz, hgu⟩
    refine (advances_next (hs 10 _ rfl) rfl rfl (.here ⟨rfl, fun u hu => ?_, ?_⟩)).reaches
    · rw [hgu u (fun e => hu (List.mem_singleton.mpr e)), hfw, f.get_set hv, f.get_set hv]
      by_cases huv : u = v
      · rw [if_pos huv, if_pos huv]
      · rw [if_neg huv, if_neg huv, if_neg huv]
    · intro y hy
      rw [List.mem_singleton.mp hy]
      exact hgz

theorem realizes_jumpZero {target skip : Label} (hskip : skip.isNamed = true)
    (hs : Seg code off (jumpZero l v target skip)) :
    Realizes r code ⟨l, .jumpZero v target⟩ [] off (off + 3) := by
  refine .of_jump target ?_
  rintro f _ _ ⟨x, -, hx⟩
  cases hx
  refine ⟨_, rfl, fun h => ?_, fun h => ?_⟩
  · refine (advances_jumpNotZero_passed hs.head (eq_of_beq h) (.here ?_)).reaches
    exact departs_jump (hs 1 _ rfl) rfl rfl ⟨fun _ _ => rfl, List.forall_mem_nil _⟩
  · refine advances_jumpNotZero_taken hs.head (ne_of_beq_false h)
      (goes_label hskip (hs 2 _ rfl) rfl _) ?_
    exact (advances_next (hs 2 _ rfl) rfl rfl
      (.here ⟨rfl, fun _ _ => rfl, List.forall_mem_nil _⟩)).reaches

theorem realizes_jumpEqualSelf {target : Label} (hs : Seg code off (jumpEqualSelf l target)) :
    Realizes r code ⟨l, .jumpEqualVariable v v target⟩ [] off (off + 1) := by
  refine .of_jump target ?_
  rintro f _ _ ⟨x, -, hx⟩
  cases hx
  refine ⟨true, by rw [beq_self_eq_true], fun _ => .here ?_, fun h => by cases h⟩
  exact departs_jump hs.head rfl rfl ⟨fun _ _ => rfl, List.forall_mem_nil _⟩

/-- The rounds of a comparison with a constant: `z` is counted down as often as there are rounds,
or is found to be zero before. -/
theorem reaches_rounds {skip : Label} {n stop : Nat} (hz : z.isConstant = false)
    (hs : Seg code off
      (List.replicate n [⟨.empty, .jumpZero z skip⟩, ⟨.empty, .decrease z⟩]).flatten)
    (hstop : ∀ next, Goes code next (.goto skip) stop) (f : Frame) :
    Reaches r code (fun c => (∀ u, u ≠ z → c.2.get u = f.get u) ∧
      (n ≤ (f.get z).toNat ∧ c.1 = off + n * 2 ∧ (c.2.get z).toNat = (f.get z).toNat - n ∨
        (f.get z).toNat < n ∧ c.1 = stop)) (off, f) := by
  induction n generalizing off f with
  | zero => exact .here ⟨fun _ _ => rfl, .inl ⟨Nat.zero_le _, rfl, rfl⟩⟩
  | succ n ih =>
    rw [List.replicate_succ, List.flatten_cons] at hs
    obtain ⟨hround, hrest⟩ := hs.append
    by_cases h0 : f.get z = 0
    · refine (advances_jumpZero_taken hround.head h0 (hstop _)
        (.here ⟨fun _ _ => rfl, .inr ⟨?_, rfl⟩⟩)).reaches
      rw [h0, UInt64.toNat_zero]
      exact Nat.succ_pos n
    · refine (advances_jumpZero_passed hround.head h0 ?_).reaches
      refine (advances_next hround.tail.head rfl rfl ?_).reaches
      have hpos := Word.toNat_pos h0
      have hd : ((f.decrement z).get z).toNat = (f.get z).toNat - 1 := by
        rw [f.get_decrement hz, if_pos rfl, Word.toNat_decrement]
      refine (ih hrest (f.decrement z)).mono ?_
      rintro c ⟨hc, hcz⟩
      refine ⟨fun u hu => ?_, ?_⟩
      · rw [hc u hu, f.get_decrement hz, if_neg hu]
      · rw [hd] at hcz
        simp only [List.length_cons, List.length_nil] at hcz
        omega

theorem realizes_jumpEqualConstant {k : Value} {target skip : Label} (hz : z.isConstant = false)
    (hskip : skip.isNamed = true) (hs : Seg code off (jumpEqualConstant l v k target skip z)) :
    Realizes r code ⟨l, .jumpEqualConstant v k target⟩ [z] off (off + (k.toNat * 2 + 4)) := by
  refine .of_jump target ?_
  rintro f _ _ ⟨x, -, hx⟩
  cases hx
  obtain ⟨hrounds, htail⟩ := Seg.append hs
  have hlen : (⟨l, .assign z v⟩ ::
      (List.replicate k.toNat [⟨.empty, .jumpZero z skip⟩, ⟨.empty, .decrease z⟩]).flatten
        : List Instruction).length = k.toNat * 2 + 1 := by
    simp [Nat.mul_comm]
  rw [hlen] at htail
  have hjump : code[off + 1 + k.toNat * 2]? = some ⟨.empty, .jumpNotZero z skip⟩ := by
    rw [show off + 1 + k.toNat * 2 = off + (k.toNat * 2 + 1) by omega]
    exact htail.head
  have hstop (next : Nat) : Goes code next (.goto skip) (off + (k.toNat * 2 + 1) + 2) :=
    goes_label hskip (htail 2 _ rfl) rfl _
  have hrun := reaches_rounds (r := r) hz hrounds.tail hstop (f.set z (f.get v))
  rw [f.get_set hz, if_pos rfl] at hrun
  have hleaves {g : Frame} (hg : ∀ u, u ≠ z → g.get u = (f.set z (f.get v)).get u) :
      (⟨l, .jumpEqualConstant v k target⟩ : Instruction).Leaves [z] f g := by
    refine ⟨fun u hu => ?_, List.forall_mem_nil _⟩
    have hne : u ≠ z := fun e => hu (List.mem_singleton.mpr e)
    rw [hg u hne, f.get_set hz, if_neg hne]
  refine ⟨_, rfl, fun h => ?_, fun h => ?_⟩
  · have heq : f.get v = k := eq_of_beq h
    refine (advances_next hrounds.head rfl rfl (hrun.bind ?_)).reaches
    rintro ⟨_, g⟩ ⟨hg, ⟨hle, rfl, hgz⟩ | ⟨hlt, rfl⟩⟩
    · have h0 : g.get z = 0 := by
        rw [heq, Nat.sub_self] at hgz
        exact UInt64.toNat_inj.mp hgz
      refine (advances_jumpNotZero_passed hjump h0 (.here ?_)).reaches
      rw [show off + 1 + k.toNat * 2 + 1 = off + (k.toNat * 2 + 1) + 1 by omega]
      exact departs_jump (htail 1 _ rfl) rfl rfl (hleaves hg)
    · rw [heq] at hlt
      exact absurd hlt (Nat.lt_irrefl _)
  · have hne : f.get v ≠ k := ne_of_beq_false h
    -- the last instruction only marks the place where the values differ
    have differ (g : Frame) (hg : ∀ u, u ≠ z → g.get u = (f.set z (f.get v)).get u) :
        Reaches r code (fun c => c.1 = off + (k.toNat * 2 + 4) ∧
          (⟨l, .jumpEqualConstant v k target⟩ : Instruction).Leaves [z] f c.2)
          (off + (k.toNat * 2 + 1) + 2, g) :=
      (advances_next (htail 2 _ rfl) rfl rfl (.here ⟨rfl, hleaves hg⟩)).reaches
    refine advances_next hrounds.head rfl rfl (hrun.bind ?_)
    rintro ⟨_, g⟩ ⟨hg, ⟨hle, rfl, hgz⟩ | ⟨-, rfl⟩⟩
    · refine (advances_jumpNotZero_taken hjump ?_ (hstop _) (differ g hg)).reaches
      intro h0
      rw [h0, UInt64.toNat_zero] at hgz
      exact hne (UInt64.toNat_inj.mp (by omega))
    · exact differ g hg

/-- The loop of a comparison counts both copies down until one of them is zero. -/
theorem reaches_jumpEqualVariable {target differ loop finish : Label} {z' : Variable}
    (hz : z.isConstant = false) (hz' : z'.isConstant = false) (hzz : z ≠ z')
    (hdiffer : differ.isNamed = true) (hloop : loop.isNamed = true)
    (hfinish : finish.isNamed = true)
    (hs : Seg code off (jumpEqualVariable l v w target differ loop finish z z')) (f : Frame) :
    Reaches r code (fun c =>
      f.get z = f.get z' ∧
        Departs r code target (fun g => ∀ u, u ≠ z → u ≠ z' → g.get u = f.get u) c ∨
      f.get z ≠ f.get z' ∧ c.1 = off + 9 ∧ ∀ u, u ≠ z → u ≠ z' → c.2.get u = f.get u)
      (off + 2, f) := by
  induction hk : (f.get z).toNat using Nat.strongRecOn generalizing f with
  | ind k ih =>
    by_cases h0 : f.get z = 0
    · refine (advances_jumpZero_taken (hs 2 _ rfl) h0
        (goes_label hfinish (hs 7 _ rfl) rfl _) ?_).reaches
      by_cases h0' : f.get z' = 0
      · refine .here (.inl ⟨h0.trans h0'.symm, departs_jump (hs 7 _ rfl) rfl ?_ ?_⟩)
        · rw [Command.execute, h0']
          rfl
        · exact fun _ _ _ => rfl
      · refine (advances_jumpZero_passed (hs 7 _ rfl) h0' ?_).reaches
        exact (advances_next (hs 8 _ rfl) rfl rfl
          (.here (.inr ⟨fun e => h0' (e ▸ h0), rfl, fun _ _ _ => rfl⟩))).reaches
    refine (advances_jumpZero_passed (hs 2 _ rfl) h0 ?_).reaches
    by_cases h0' : f.get z' = 0
    · refine (advances_jumpZero_taken (hs 3 _ rfl) h0'
        (goes_label hdiffer (hs 8 _ rfl) rfl _) ?_).reaches
      exact (advances_next (hs 8 _ rfl) rfl rfl
        (.here (.inr ⟨fun e => h0 (e ▸ h0'), rfl, fun _ _ _ => rfl⟩))).reaches
    refine (advances_jumpZero_passed (hs 3 _ rfl) h0' ?_).reaches
    refine (advances_next (hs 4 _ rfl) rfl rfl ?_).reaches
    refine (advances_next (hs 5 _ rfl) rfl rfl ?_).reaches
    refine (advances_goto (hs 6 _ rfl) (goes_label hloop (hs 2 _ rfl) rfl _) ?_).reaches
    generalize hg : (f.decrement z).decrement z' = g
    have hgu (u : Variable) (hu : u ≠ z) (hu' : u ≠ z') : g.get u = f.get u := by
      rw [← hg, Frame.get_decrement _ hz', if_neg hu', f.get_decrement hz, if_neg hu]
    have hgz : (g.get z).toNat = (f.get z).toNat - 1 := by
      rw [← hg, Frame.get_decrement _ hz', if_neg hzz, f.get_decrement hz, if_pos rfl,
        Word.toNat_decrement]
    have hgz' : (g.get z').toNat = (f.get z').toNat - 1 := by
      rw [← hg, Frame.get_decrement _ hz', if_pos rfl, f.get_decrement hz, if_neg hzz.symm,
        Word.toNat_decrement]
    have hpos := Word.toNat_pos h0
    have hpos' := Word.toNat_pos h0'
    have hiff : g.get z = g.get z' ↔ f.get z = f.get z' := by
      rw [← UInt64.toNat_inj, ← UInt64.toNat_inj, hgz, hgz']
      omega
    refine (ih (k - 1) (by omega) g (hgz.trans (by rw [hk]))).mono ?_
    rintro c (⟨he, i, g', hi, hx, hg'⟩ | ⟨hne, hpc, hc⟩)
    · exact .inl ⟨hiff.mp he, i, g', hi, hx,
        fun u hu hu' => (hg' u hu hu').trans (hgu u hu hu')⟩
    · exact .inr ⟨mt hiff.mpr hne, hpc, fun u hu hu' => (hc u hu hu').trans (hgu u hu hu')⟩

theorem realizes_jumpEqualVariable {target differ loop finish : Label} {z' : Variable}
    (hz : z.isConstant = false) (hz' : z'.isConstant = false) (hzz : z ≠ z') (hzw : z ≠ w)
    (hdiffer : differ.isNamed = true) (hloop : loop.isNamed = true)
    (hfinish : finish.isNamed = true)
    (hs : Seg code off (jumpEqualVariable l v w target differ loop finish z z')) :
    Realizes r code ⟨l, .jumpEqualVariable v w target⟩ [z, z'] off (off + 9) := by
  refine .of_jump target ?_
  rintro f _ _ ⟨x, -, hx⟩
  cases hx
  generalize hcopy : (f.set z (f.get v)).set z' ((f.set z (f.get v)).get w) = g
  have hgu (u : Variable) (hu : u ≠ z) (hu' : u ≠ z') : g.get u = f.get u := by
    rw [← hcopy, Frame.get_set _ hz', if_neg hu', f.get_set hz, if_neg hu]
  have hgz : g.get z = f.get v := by
    rw [← hcopy, Frame.get_set _ hz', if_neg hzz, f.get_set hz, if_pos rfl]
  have hgz' : g.get z' = f.get w := by
    rw [← hcopy, Frame.get_set _ hz', if_pos rfl, f.get_set hz, if_neg hzw.symm]
  have hstart {P : Spot → Prop} (h : Reaches r code P (off + 2, g)) :
      Advances r code P (off, f) := by
    refine advances_next hs.head rfl rfl (advances_next hs.tail.head rfl rfl ?_).reaches
    rw [hcopy]
    exact h
  have hleaves {h : Frame} (hh : ∀ u, u ≠ z → u ≠ z' → h.get u = g.get u) :
      (⟨l, .jumpEqualVariable v w target⟩ : Instruction).Leaves [z, z'] f h := by
    refine ⟨fun u hu => ?_, List.forall_mem_nil _⟩
    have hu := not_or.mp (mt List.mem_pair.mpr hu)
    rw [hh u hu.1 hu.2, hgu u hu.1 hu.2]
  have hrun := hstart (reaches_jumpEqualVariable hz hz' hzz hdiffer hloop hfinish hs g)
  rw [hgz, hgz'] at hrun
  refine ⟨_, rfl, fun h => hrun.reaches.mono ?_, fun h => hrun.mono ?_⟩
  · rintro c (⟨-, i, g', hi, hx, hg'⟩ | ⟨hne, -⟩)
    · exact ⟨i, g', hi, hx, hleaves hg'⟩
    · exact absurd (eq_of_beq h) hne
  · rintro c (⟨he, -⟩ | ⟨-, hpc, hc⟩)
    · exact absurd he (ne_of_beq_false h)
    · exact ⟨hpc, hleaves hc⟩

theorem realizes_jumpEqualCall {c : Call} {target : Label} (hz : z.isConstant = false) (hzv : z ≠ v)
    (hs : Seg code off (jumpEqualCall l v c target z)) :
    Realizes r code ⟨l, .jumpEqualCall v c target⟩ [z] off (off + 2) := by
  refine .of_jump target ?_
  rintro f _ _ ⟨x, hworth, hx⟩
  cases hx
  have hquote : (Command.quote z c).Executes r f (f.set z x) .next := ⟨x, hworth, rfl⟩
  have hmove : Moves r code (off, f) (off + 1, f.set z x) := ⟨_, _, hs.head, hquote, .next⟩
  have hcompare : (Command.jumpEqualVariable v z target).Executes r (f.set z x) (f.set z x)
      (.gotoIf (f.get v == x) target) := by
    refine .plain rfl ?_
    rw [Command.execute, f.get_set hz, f.get_set hz, if_neg hzv.symm, if_pos rfl]
  have hleaves : (⟨l, .jumpEqualCall v c target⟩ : Instruction).Leaves [z] f (f.set z x) := by
    refine ⟨fun u hu => ?_, List.forall_mem_nil _⟩
    rw [f.get_set hz, if_neg fun e => hu (List.mem_singleton.mpr e)]
  refine ⟨_, rfl, fun h => .move hmove (.here ?_), fun h => ⟨_, hmove, ?_⟩⟩
  · rw [h] at hcompare
    exact ⟨_, _, hs.tail.head, hcompare, hleaves⟩
  · rw [h] at hcompare
    have hpass : Moves r code (off + 1, f.set z x) (off + 2, f.set z x) :=
      ⟨_, _, hs.tail.head, hcompare, .next⟩
    exact .move hpass (.here ⟨rfl, hleaves⟩)

end Block

end SLanguage
