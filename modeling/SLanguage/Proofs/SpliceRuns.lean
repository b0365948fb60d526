import Mathlib.Data.List.Perm.Subperm
import SLanguage.Proofs.Adequacy
import SLanguage.Proofs.BlockRuns

/-!
# A splice does what its call does

The prelude of a splice puts the values of the arguments into the holders and zero into the other
variables of the copy, so the copy starts as the body does (`Locked`). From there the copy and the
body move in step (`Locked.move`), the exit of the body being the end of the copy. So the splice
comes to its end with the answer of the function (`realizes_splice`), and conversely the call has a
value if a run that goes into the splice ends (`worth_of_ends`).
-/

namespace SLanguage

/-! ## Inputs -/

theorem Variable.ofInputIndex_inj {j k : Nat} (hj : j < numberLimit) (hk : k < numberLimit)
    (h : ofInputIndex j = ofInputIndex k) : j = k := by
  have h : UInt32.ofNat (j + 1) = UInt32.ofNat (k + 1) := Variable.input.inj h
  have := congrArg UInt32.toNat h
  rw [UInt32.toNat_ofNat', UInt32.toNat_ofNat'] at this
  rw [Variable.numberLimit] at hj hk
  omega

namespace Frame

/-- Inserts values from a place on. -/
theorem getElem?_foldl_insert_of_ne {v : Variable} {vs : List Value} {place : Nat}
    (h : ∀ k, k < vs.length → v ≠ .ofInputIndex (place + k)) (m : Std.TreeMap Variable Value) :
    ((vs.zipIdx place).foldl (fun m x => m.insert (.ofInputIndex x.2) x.1) m)[v]? = m[v]? := by
  induction vs generalizing place m with
  | nil => rfl
  | cons w rest ih =>
    rw [List.zipIdx_cons, List.foldl_cons, ih, Std.TreeMap.getElem?_insert, if_neg]
    · intro e
      exact h 0 (Nat.succ_pos _) (Std.LawfulEqOrd.eq_of_compare e).symm
    · intro k hk
      rw [Nat.add_assoc, Nat.add_comm 1]
      exact h (k + 1) (Nat.succ_lt_succ hk)

theorem getElem?_foldl_insert {vs : List Value} {place k : Nat} {w : Value} (hw : vs[k]? = some w)
    (hle : place + vs.length ≤ Variable.numberLimit) (m : Std.TreeMap Variable Value) :
    ((vs.zipIdx place).foldl (fun m x => m.insert (.ofInputIndex x.2) x.1) m)[
      Variable.ofInputIndex (place + k)]? = some w := by
  induction vs generalizing place k m with
  | nil => cases hw
  | cons x rest ih =>
    rw [List.length_cons] at hle
    rw [List.zipIdx_cons, List.foldl_cons]
    cases k with
    | zero =>
      cases hw
      rw [getElem?_foldl_insert_of_ne, Nat.add_zero, Std.TreeMap.getElem?_insert_self]
      intro k hk e
      have := Variable.ofInputIndex_inj (by omega) (by omega) e
      omega
    | succ k =>
      rw [show place + (k + 1) = place + 1 + k by omega]
      exact ih hw (by omega) (m.insert (.ofInputIndex place) x)

theorem get_of_not_constant (f : Frame) {v : Variable} (hv : v.isConstant = false) :
    f.get v = f.values[v]?.getD 0 := by
  cases v with
  | constant k => cases hv
  | _ => rfl

theorem get_ofInputs {vs : List Value} {k : Nat} {w : Value} (hw : vs[k]? = some w)
    (hle : vs.length ≤ Variable.numberLimit) : (ofInputs vs).get (.ofInputIndex k) = w := by
  have hle : 0 + vs.length ≤ Variable.numberLimit := by rwa [Nat.zero_add]
  have h := getElem?_foldl_insert hw hle ∅
  rw [Nat.zero_add] at h
  rw [get_of_not_constant _ rfl]
  exact congrArg (Option.getD · 0) h

theorem get_ofInputs_of_ne {vs : List Value} {v : Variable} (hc : v.isConstant = false)
    (h : ∀ k, k < vs.length → v ≠ .ofInputIndex k) : (ofInputs vs).get v = 0 := by
  have h : ∀ k, k < vs.length → v ≠ .ofInputIndex (0 + k) := by simpa using h
  rw [get_of_not_constant _ hc]
  exact congrArg (Option.getD · 0) (getElem?_foldl_insert_of_ne h ∅)

end Frame

/-! ## The prelude -/

variable {r : Registry} {code : List Instruction} {off : Nat}

/-- The instruction of a command that stands in the sequence, under some label. -/
theorem exists_label {c : Command} (h : (code.map (·.command))[off]? = some c) :
    ∃ l, code[off]? = some ⟨l, c⟩ := by
  rw [List.getElem?_map] at h
  obtain ⟨i, hi, rfl⟩ := Option.map_eq_some_iff.mp h
  exact ⟨i.label, hi⟩

theorem Splice.map_command_relabelFirst (l : Label) (xs : List Instruction) :
    (relabelFirst l xs).map (·.command) = xs.map (·.command) := by
  cases xs <;> rfl

theorem Seg.commands {block : List Instruction} (h : Seg code off block) :
    Seg (code.map (·.command)) off (block.map (·.command)) := by
  intro k c hc
  rw [List.getElem?_map] at hc ⊢
  obtain ⟨i, hi, rfl⟩ := Option.map_eq_some_iff.mp hc
  rw [h k i hi]
  rfl

namespace Splice

/-- A load takes the value of the argument. -/
theorem executes_load {holder : Variable} {a : Argument} {f f' : Frame} {signal : Signal} :
    (load holder a).Executes r f f' signal ↔
      ∃ w, a.Worth r f w ∧ f' = f.set holder w ∧ signal = .next := by
  have plain {c : Command} {w : Value} (hc : c.call? = none)
      (hx : ∀ x, c.execute (fun _ => .done x) f = .done (f.set holder w, .next)) :
      c.Executes r f f' signal ↔ ∃ x, x = w ∧ f' = f.set holder x ∧ signal = .next := by
    constructor
    · rintro ⟨x, -, h⟩
      rw [hx] at h; cases h
      exact ⟨w, rfl, rfl, rfl⟩
    · rintro ⟨x, rfl, rfl, rfl⟩
      exact .plain hc (hx 0)
  cases a with
  | leaf v =>
    cases v with
    | constant k => exact plain rfl fun _ => rfl
    | _ => exact plain rfl fun _ => rfl
  | call name arguments =>
    constructor
    · rintro ⟨w, hw, h⟩
      cases h
      exact ⟨w, hw _ rfl, rfl, rfl⟩
    · rintro ⟨w, hw, rfl, rfl⟩
      exact ⟨w, fun c hc => by cases hc; exact hw, rfl⟩

/-- The loads fill the holders with the values of the arguments. -/
theorem reaches_loads {holders : List Variable} {as : List Argument} {vs : List Value} {f : Frame}
    (hs : Seg (code.map (·.command)) off (List.zipWith load holders as))
    (hlen : holders.length = as.length) (hnd : holders.Nodup)
    (hc : ∀ h ∈ holders, h.isConstant = false)
    (hnew : ∀ a ∈ as, ∀ u ∈ a.vars, u ∉ holders) (hw : List.Forall₂ (Argument.Worth r f) as vs) :
    Reaches r code (fun c => c.1 = off + holders.length ∧
      holders.map c.2.get = vs ∧
      ∀ u, u ∉ holders → c.2.get u = f.get u) (off, f) := by
  induction as generalizing holders vs off f with
  | nil =>
    cases hw
    cases holders with
    | nil => exact .here ⟨rfl, rfl, fun _ _ => rfl⟩
    | cons h rest => cases hlen
  | cons a as ih =>
    obtain ⟨w, ws, ha, has, rfl⟩ := List.forall₂_cons_left_iff.mp hw
    cases holders with
    | nil => cases hlen
    | cons h rest =>
      obtain ⟨hh, hnd⟩ := List.nodup_cons.mp hnd
      obtain ⟨l, hi⟩ := exists_label hs.head
      have hx : (load h a).Executes r f (f.set h w) .next := executes_load.mpr ⟨w, ha, rfl, rfl⟩
      have hmove : Moves r code (off, f) (off + 1, f.set h w) := ⟨_, _, hi, hx, .next⟩
      have hget (u : Variable) (hu : u ≠ h) : (f.set h w).get u = f.get u := by
        rw [f.get_set (hc h (.head _)), if_neg hu]
      have has' : List.Forall₂ (Argument.Worth r (f.set h w)) as ws := by
        refine (Argument.forall₂_congr fun b hb x => Argument.worth_congr fun u hu => ?_).mpr has
        exact hget u fun e => hnew b (.tail _ hb) u hu (e ▸ .head _)
      refine .move hmove ((ih hs.tail (Nat.succ.inj hlen) hnd (fun h hm => hc h (.tail _ hm))
        (fun b hb u hu hm => hnew b (.tail _ hb) u hu (.tail _ hm)) has').mono ?_)
      rintro c ⟨hpc, hvals, hrest⟩
      refine ⟨by rw [hpc, List.length_cons]; omega, ?_, fun u hu => ?_⟩
      · rw [List.map_cons, hvals, hrest h hh, f.get_set (hc h (.head _)), if_pos rfl]
      · obtain ⟨hne, hu⟩ := not_or.mp (mt List.mem_cons.mpr hu)
        rw [hrest u hu, hget u hne]

/-- If a run that goes into the loads ends, the arguments have values. -/
theorem worth_of_loads {holders : List Variable} {as : List Argument} {f g : Frame} {n : Nat}
    (hs : Seg (code.map (·.command)) off (List.zipWith load holders as))
    (hlen : holders.length = as.length) (hc : ∀ h ∈ holders, h.isConstant = false)
    (hnew : ∀ a ∈ as, ∀ u ∈ a.vars, u ∉ holders)
    (he : Ends r code n (off, f) g) : ∃ vs, List.Forall₂ (Argument.Worth r f) as vs := by
  induction as generalizing holders off f n with
  | nil => exact ⟨[], .nil⟩
  | cons a as ih =>
    cases holders with
    | nil => cases hlen
    | cons h rest =>
      obtain ⟨l, hi⟩ := exists_label hs.head
      obtain ⟨m, f', signal, pc, -, hx, hg, he⟩ := he.step hi
      obtain ⟨w, hw, rfl, rfl⟩ := executes_load.mp hx
      cases hg
      obtain ⟨ws, hws⟩ := ih hs.tail (Nat.succ.inj hlen) (fun h hm => hc h (.tail _ hm))
        (fun b hb u hu hm => hnew b (.tail _ hb) u hu (.tail _ hm)) he
      refine ⟨w :: ws, .cons hw ?_⟩
      refine (Argument.forall₂_congr fun b hb x => Argument.worth_congr fun u hu => ?_).mp hws
      rw [f.get_set (hc h (.head _)), if_neg]
      rintro rfl
      exact hnew b (.tail _ hb) u hu (.head _)

theorem reaches_zeros {zs : List Variable} {f : Frame}
    (hs : Seg (code.map (·.command)) off (zs.map .zero)) (hc : ∀ z ∈ zs, z.isConstant = false) :
    Reaches r code (fun c => c.1 = off + zs.length ∧
      ∀ u, c.2.get u = if u ∈ zs then 0 else f.get u) (off, f) := by
  induction zs generalizing off f with
  | nil => exact .here ⟨rfl, fun _ => rfl⟩
  | cons z rest ih =>
    obtain ⟨l, hi⟩ := exists_label hs.head
    refine (advances_next hi rfl rfl ?_).reaches
    refine (ih hs.tail fun z hz => hc z (.tail _ hz)).mono ?_
    rintro c ⟨hpc, hget⟩
    refine ⟨by rw [hpc, List.length_cons]; omega, fun u => ?_⟩
    rw [hget u, f.get_set (hc z (.head _))]
    simp only [List.mem_cons]
    split_ifs <;> tauto

/-! ## The parts of a splice -/

variable {s : Splice} {c : Call} {body : List Instruction} {f b h : Frame} {l : Label}
  {v : Variable}

theorem length_relabelFirst (l : Label) (xs : List Instruction) :
    (relabelFirst l xs).length = xs.length := by
  cases xs <;> rfl

/-- The splice of a call stands in the sequence at `off`. -/
structure Placed (code : List Instruction) (s : Splice) (l : Label) (v : Variable) (c : Call)
    (body : List Instruction) (off : Nat) : Prop where
  names : s.Names c body
  drawn : Drawn ⟨l, .quote v c⟩ (s.holders ++ s.locals.map (·.2)) (s.finish :: s.labels.map (·.2))
  seg : Seg code off (s.block l v c body)

namespace Placed

theorem isConstant (hp : Placed code s l v c body off) :
    ∀ w ∈ s.holders ++ s.locals.map (·.2), w.isConstant = false :=
  fun _ hw => hp.drawn.isConstant hw

theorem prelude (hp : Placed code s l v c body off) :
    Seg (code.map (·.command)) off (List.zipWith load s.holders c.arguments) ∧
    Seg (code.map (·.command)) (off + s.holders.length) ((s.locals.map (·.2)).map .zero) := by
  have hseg := hp.seg
  rw [hp.names.block_eq] at hseg
  have hcommands := hseg.append.1.commands
  rw [map_command_relabelFirst, Splice.prelude, List.map_append, List.map_zipWith, List.map_map]
    at hcommands
  obtain ⟨hloads, hzeros⟩ := hcommands.append
  rw [List.length_zipWith, hp.names.holders, Nat.min_self, ← hp.names.holders] at hzeros
  exact ⟨hloads, by rw [List.map_map]; exact hzeros⟩

theorem copy (hp : Placed code s l v c body off) :
    Seg code (off + (s.prelude c).length) (s.copy body) ∧
    code[off + (s.prelude c).length + body.length]? =
      some ⟨s.finish, .assign v (s.renameVariable .result)⟩ := by
  have hseg := hp.seg
  rw [hp.names.block_eq] at hseg
  have hrest := hseg.append.2
  rw [length_relabelFirst] at hrest
  have hlast := hrest.append.2.head
  rw [Splice.copy, List.length_map] at hlast
  exact ⟨hrest.append.1, hlast⟩

theorem length_block (hp : Placed code s l v c body off) :
    (s.block l v c body).length = (s.prelude c).length + body.length + 1 := by
  rw [hp.names.block_eq, List.length_append, List.length_append, length_relabelFirst, Splice.copy,
    List.length_map, Nat.add_assoc]
  rfl

theorem getElem?_copy (hp : Placed code s l v c body off) {pc : Nat} {i : Instruction}
    (hi : body[pc]? = some i) : code[off + (s.prelude c).length + pc]? =
      some (i.rename s.renameVariable s.renameLabel) := by
  refine hp.copy.1 pc _ ?_
  rw [Splice.copy, List.getElem?_map, hi]
  rfl

/-- The holders are no variables of the arguments. -/
theorem holders_new (hp : Placed code s l v c body off) :
    ∀ a ∈ c.arguments, ∀ u ∈ a.vars, u ∉ s.holders := by
  intro a ha u hu hm
  refine hp.drawn.new u (List.mem_append_left _ hm) (List.mem_append_right _ ?_)
  exact Argument.vars_subset ha hu

end Placed

/-! ## The copy -/

/-- In the copy the frame holds what `b` holds in the body, and elsewhere what `f` holds. -/
structure Locked (s : Splice) (body : List Instruction) (f b h : Frame) : Prop where
  inPlay : ∀ u, InPlay body u → h.get (s.renameVariable u) = b.get u
  rest : ∀ u, u ∉ s.holders ++ s.locals.map (·.2) → h.get u = f.get u

/-- The copy goes where the body goes; its exit is its end. -/
theorem Placed.goes (hp : Placed code s l v c body off) {next pc : Nat} {signal : Signal}
    (hg : Goes body next signal pc) : Goes code (off + (s.prelude c).length + next)
      (signal.rename s.renameLabel) (off + (s.prelude c).length + pc) := by
  cases hg with
  | next => exact .next
  | halt => exact goes_label (hp.drawn.named _ (.head _)) hp.copy.2 rfl _
  | @jump m _ i hn hi hl =>
    have hm : m ∈ attached body := mem_attached.mpr ⟨hn, i, List.mem_of_getElem? hi, hl⟩
    exact goes_label (hp.drawn.named _ (.tail _ (hp.names.renameLabel_mem hm).1))
      (hp.getElem?_copy hi) (congrArg s.renameLabel hl) _

namespace Locked

/-- What an instruction of the body does, its copy does. -/
theorem executes (hl : Locked s body f b h) (hp : Placed code s l v c body off) {i : Instruction}
    (him : i ∈ body) {b' : Frame} {signal : Signal} (hx : i.command.Executes r b b' signal) :
    ∃ h', (i.rename s.renameVariable s.renameLabel).command.Executes r h h'
      (signal.rename s.renameLabel) ∧ Locked s body f b' h' := by
  have hop {v : Variable} (hv : v ∈ i.command.operands) (hvc : v.isConstant = false) :
      s.renameVariable v ∈ s.holders ++ s.locals.map (·.2) :=
    hp.names.renameVariable_mem (mem_varsOf.mpr ⟨hvc, .inr ⟨i, him, List.mem_append_left _ hv⟩⟩)
  have hconst : ∀ v ∈ i.command.operands, (s.renameVariable v).isConstant = v.isConstant := by
    intro v hv
    cases hvc : v.isConstant with
    | true => rw [hp.names.renameVariable_constant hvc, hvc]
    | false => exact hp.isConstant _ (hop hv hvc)
  obtain ⟨h', hx', hin, hrest⟩ := hx.rename (g := s.renameLabel)
    (fun v hv => inPlay_of_mem him hv)
    (fun u v hu hv e => hp.names.renameVariable_injOn hp.drawn.nodup hp.isConstant hu hv e)
    hconst hl.inPlay
  refine ⟨h', hx', hin, fun u hu => ?_⟩
  rw [hrest u fun v hv hvc e => hu (e ▸ hop hv hvc)]
  exact hl.rest u hu

/-- One step of the body is one step of the copy. -/
theorem move (hl : Locked s body f b h) (hp : Placed code s l v c body off) {pc pc' : Nat}
    {b' : Frame} (hm : Moves r body (pc, b) (pc', b')) :
    ∃ h', Moves r code (off + (s.prelude c).length + pc, h)
      (off + (s.prelude c).length + pc', h') ∧ Locked s body f b' h' := by
  obtain ⟨i, signal, hi, hx, hg⟩ := hm
  have him : i ∈ body := List.mem_of_getElem? hi
  obtain ⟨h', hx', hl'⟩ := hl.executes hp him hx
  exact ⟨h', ⟨_, _, hp.getElem?_copy hi, hx', hp.goes hg⟩, hl'⟩

/-- A run of the body to its end is a run of the copy to its end. -/
theorem run (hl : Locked s body f b h) (hp : Placed code s l v c body off) {n pc : Nat}
    {g : Frame} (he : Ends r body n (pc, b) g) (hpc : pc ≤ body.length) :
    Reaches r code (fun x => x.1 = off + (s.prelude c).length + body.length ∧
      Locked s body f g x.2) (off + (s.prelude c).length + pc, h) := by
  induction n generalizing pc b h with
  | zero =>
    cases he with
    | stop ho => exact .here ⟨by rw [Nat.le_antisymm hpc ho], hl⟩
  | succ n ih =>
    cases he with
    | move hm he =>
      obtain ⟨h', hm', hl'⟩ := hl.move hp hm
      exact .move hm' (ih hl' he hm.le)

/-- If a run in the copy ends, the body ends. -/
theorem ends (hl : Locked s body f b h) (hp : Placed code s l v c body off)
    (hbody : Regular r body) (hu : (attached code).Nodup) {n pc : Nat} {g : Frame}
    (he : Ends r code n (off + (s.prelude c).length + pc, h) g) :
    ∃ m g', Ends r body m (pc, b) g' := by
  induction n using Nat.strongRecOn generalizing pc b h with
  | ind n ih =>
    cases hi : body[pc]? with
    | none => exact ⟨0, b, .stop (List.getElem?_eq_none_iff.mp hi)⟩
    | some i =>
      have him : i ∈ body := List.mem_of_getElem? hi
      obtain ⟨m, h1, signal, pc1, rfl, hx, hg, he⟩ := he.step (hp.getElem?_copy hi)
      obtain ⟨b', signal', hx'⟩ := Command.Executes.of_rename (fun v hv => inPlay_of_mem him hv)
        hl.inPlay hx
      obtain ⟨pc', hg'⟩ := exists_goes (hbody.targets i him) hx' (pc + 1)
      have hm : Moves r body (pc, b) (pc', b') := ⟨i, signal', hi, hx', hg'⟩
      obtain ⟨h', hm', hl'⟩ := hl.move hp hm
      have hm1 : Moves r code (off + (s.prelude c).length + pc, h) (pc1, h1) :=
        ⟨_, signal, hp.getElem?_copy hi, hx, hg⟩
      rw [hm1.unique hu hm'] at he
      obtain ⟨k, g', he'⟩ := ih m (Nat.lt_succ_self m) hl' he
      exact ⟨k + 1, g', .move hm he'⟩

end Locked

/-! ## The whole splice -/

/-- There are no more work variables than numbers for them. -/
theorem length_le_numberLimit {ws : List Variable} (hnd : ws.Nodup)
    (hw : ∀ w ∈ ws, ∃ k, w = .work k) : ws.length ≤ Variable.numberLimit := by
  have hsub : ws ⊆ (List.range Variable.numberLimit).map fun k => .work (UInt32.ofNat k) := by
    intro w hm
    obtain ⟨k, rfl⟩ := hw w hm
    exact List.mem_map.mpr ⟨k.toNat, List.mem_range.mpr k.toNat_lt, by rw [UInt32.ofNat_toNat]⟩
  have := (hnd.subperm hsub).length_le
  rwa [List.length_map, List.length_range] at this

/-- After the prelude the copy starts as the body does. -/
theorem locked_start (hs : s.Names c body) (hlen : s.holders.length ≤ Variable.numberLimit)
    {vs : List Value} (hvs : s.holders.map h.get = vs)
    (hzero : ∀ z ∈ s.locals.map (·.2), h.get z = 0)
    (hrest : ∀ u, u ∉ s.holders ++ s.locals.map (·.2) → h.get u = f.get u) :
    Locked s body f (.starting body vs) h := by
  refine ⟨fun u hu => ?_, hrest⟩
  rw [Frame.get_starting]
  rcases hu with hcu | hu
  · rw [hs.renameVariable_constant hcu]
    cases u <;> first | rfl | cases hcu
  have hlook := hs.lookup_pairs hu
  rw [pairs, List.lookup_append] at hlook
  cases hin : (inputs s.holders).lookup u with
  | some z =>
    rw [hin] at hlook
    obtain rfl : z = s.renameVariable u := Option.some.inj hlook
    obtain ⟨⟨z, k⟩, hk, e⟩ := List.mem_map.mp (mem_of_lookup hin)
    obtain ⟨rfl, hz⟩ := Prod.mk.inj e
    have hk : vs[k]? = some (h.get z) := by
      rw [← hvs, List.getElem?_map, List.mk_mem_zipIdx_iff_getElem?.mp hk]
      rfl
    rw [← hz, Frame.get_ofInputs hk (by rw [← hvs, List.length_map]; exact hlen)]
  | none =>
    rw [hin] at hlook
    rw [hzero _ (List.mem_map.mpr ⟨_, mem_of_lookup hlook, rfl⟩),
      Frame.get_ofInputs_of_ne (mem_varsOf.mp hu).1]
    rintro k hk rfl
    rw [← hvs, List.length_map] at hk
    have hm : (.ofInputIndex k, s.holders[k]) ∈ inputs s.holders :=
      List.mem_map.mpr ⟨(s.holders[k], k), List.mk_mem_zipIdx_iff_getElem?.mpr
        (List.getElem?_eq_getElem hk), rfl⟩
    have := List.lookup_eq_none_iff.mp hin _ hm
    simp at this

theorem Placed.reaches_prelude (hp : Placed code s l v c body off) {vs : List Value}
    (hvs : List.Forall₂ (Argument.Worth r f) c.arguments vs) :
    Reaches r code (fun x => x.1 = off + (s.prelude c).length ∧
      Locked s body f (.starting body vs) x.2) (off, f) := by
  obtain ⟨hloads, hzeros⟩ := hp.prelude
  obtain ⟨hnd, -, hdisj⟩ := List.nodup_append.mp hp.drawn.nodup
  have hlen : s.holders.length ≤ Variable.numberLimit :=
    length_le_numberLimit hnd fun w hw => hp.drawn.work w (List.mem_append_left _ hw)
  refine (reaches_loads hloads hp.names.holders hnd
    (fun w hw => hp.isConstant w (List.mem_append_left _ hw)) hp.holders_new hvs).bind ?_
  rintro ⟨_, g⟩ ⟨rfl, hvals, hg⟩
  refine (reaches_zeros hzeros fun z hz => hp.isConstant z (List.mem_append_right _ hz)).mono ?_
  rintro x ⟨hpc, hx⟩
  refine ⟨?_, locked_start hp.names hlen ?_ (fun z hz => by rw [hx z, if_pos hz]) fun u hu => ?_⟩
  · rw [hpc, Splice.prelude, List.length_append, List.length_zipWith, hp.names.holders,
      Nat.min_self, List.length_map, List.length_map, Nat.add_assoc]
  · rw [← hvals]
    refine List.map_congr_left fun z hz => ?_
    rw [hx z, if_neg fun hm => hdisj z hz z hm rfl]
  · obtain ⟨hu1, hu2⟩ := not_or.mp (mt List.mem_append.mpr hu)
    rw [hx u, if_neg hu2, hg u hu1]

section
variable {fn : Function} (hf : r.get? c.name = some fn) (hp : Placed code s l v c fn.body off)
include hf hp

theorem realizes_splice (hv : v.isConstant = false) :
    Realizes r code ⟨l, .quote v c⟩ (s.holders ++ s.locals.map (·.2)) off
      (off + (s.block l v c fn.body).length) := by
  refine .of_next (fun _ _ => ⟨_, rfl⟩) ?_
  rintro f _ - ⟨w, hw, hx⟩
  cases hx
  obtain ⟨fn', vs, hf', hvs, hans⟩ := Argument.worth_call_iff.mp (hw c rfl)
  rw [hf] at hf'; cases hf'
  obtain ⟨-, -, n, g, hends, hres⟩ := hans.ends
  rw [hp.length_block]
  refine Reaches.advances ?_ fun h => by have := h.1; omega
  refine (hp.reaches_prelude hvs).bind ?_
  rintro ⟨_, h⟩ ⟨rfl, hl⟩
  refine (hl.run hp hends (Nat.zero_le _)).bind ?_
  rintro ⟨_, h⟩ ⟨rfl, hl⟩
  refine (advances_next hp.copy.2 rfl rfl
    (.here ⟨by omega, fun u hu => ?_, List.forall_mem_nil _⟩)).reaches
  rw [Frame.get_set _ hv, Frame.get_set _ hv,
    hl.inPlay .result (.inr (mem_varsOf.mpr ⟨rfl, .inl rfl⟩)), hres, hl.rest u hu]

/-- If a run that goes into the splice ends, the call has a value. -/
theorem worth_of_ends (hr : r.Sound) (hu : (attached code).Nodup) {n : Nat} {g : Frame}
    (he : Ends r code n (off, f) g) : ∃ w, c.toArgument.Worth r f w := by
  obtain ⟨vs, hvs⟩ := worth_of_loads hp.prelude.1 hp.names.holders
    (fun w hw => hp.isConstant w (List.mem_append_left _ hw)) hp.holders_new he
  obtain ⟨m, ⟨_, h⟩, -, ⟨rfl, hl⟩, he⟩ := he.after hu (hp.reaches_prelude hvs)
  rw [← Nat.add_zero (off + _)] at he
  obtain ⟨k, g', he'⟩ := hl.ends hp (hr.regular _ _ hf) hu he
  exact ⟨_, Argument.worth_call_iff.mpr ⟨fn, vs, hf, hvs, r.answers_of_ends hr hf he'⟩⟩

end

end Splice

end SLanguage
