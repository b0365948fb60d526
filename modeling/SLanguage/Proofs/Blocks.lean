import SLanguage.Proofs.Pass
import SLanguage.Proofs.Splice

/-!
# What stands in a block

By cases on the templates: a block mentions only variables of its instruction, drawn ones and
constants (`Template.vars`); the labels that stand in it are the label of the instruction and the
drawn ones, each once (`Template.attached_perm`); its jumps go to the target of the instruction or
stay in the block, unless a body jumps to nowhere (`Template.targets`); and it writes to no constant
and calls nothing new (`Template.writable`, `Template.callNames`).
-/

namespace SLanguage

open Names

/-! ## Renamed instructions -/

namespace Argument

theorem vars_rename (f : Variable → Variable) (a : Argument) :
    (a.rename f).vars = a.vars.map f := by
  induction a with
  | leaf v => rfl
  | call name arguments ih =>
    rw [rename, vars, vars, listVars_eq, listVars_eq, renameList_eq, List.flatMap_map,
      List.map_flatMap]
    exact List.flatMap_congr fun a ha => ih a ha

end Argument

theorem Call.vars_rename (f : Variable → Variable) (c : Call) : (c.rename f).vars = c.vars.map f :=
  Argument.vars_rename f c.toArgument

namespace Instruction

variable (f : Variable → Variable) (g : Label → Label) (i : Instruction)

theorem operands_rename : (i.rename f g).command.operands = i.command.operands.map f := by
  obtain ⟨l, command⟩ := i
  cases command <;> rfl

theorem vars_rename : (i.rename f g).vars = i.vars.map f := by
  obtain ⟨l, command⟩ := i
  cases command <;> simp [rename, vars, Command.vars, Command.operands, Command.rename,
    Command.subject?, Command.other?, Command.call?, Call.vars_rename]

theorem target?_rename : (i.rename f g).target? = i.target?.map g := by
  obtain ⟨l, command⟩ := i
  cases command <;> rfl

theorem callNames_rename : (i.rename f g).callNames = i.callNames := by
  obtain ⟨l, command⟩ := i
  cases command <;> simp [rename, callNames, call?, Command.rename, Command.call?,
    Call.names_rename]

end Instruction

variable {r : Registry} {i : Instruction} {works : List Variable} {labels : List Label}
  {block : List Instruction}

/-! ## Variables -/

theorem Argument.vars_subset {c : Call} {a : Argument} (ha : a ∈ c.arguments) {v : Variable}
    (hv : v ∈ a.vars) : v ∈ c.vars := by
  rw [Call.vars, listVars_eq]
  exact List.mem_flatMap.mpr ⟨a, ha, hv⟩

theorem Splice.vars_load {holder v : Variable} {a : Argument}
    (h : v ∈ (load holder a).vars) : v = holder ∨ v ∈ a.vars := by
  cases a with
  | call name arguments => exact List.mem_cons.mp h
  | leaf w =>
    cases w with
    | constant k => exact .inl (List.mem_singleton.mp h)
    | _ => exact List.mem_cons.mp h

/-- A variable of the copy was drawn for it, or is a constant. -/
theorem Splice.Names.vars_rename {s : Splice} {c : Call} {body : List Instruction}
    (hs : s.Names c body) {j : Instruction} (hj : j ∈ body) {v : Variable}
    (hv : v ∈ (j.rename s.renameVariable s.renameLabel).vars) :
    v ∈ s.holders ++ s.locals.map (·.2) ∨ v.isConstant = true := by
  rw [Instruction.vars_rename] at hv
  obtain ⟨w, hw, rfl⟩ := List.mem_map.mp hv
  by_cases hc : w.isConstant = true
  · rw [hs.renameVariable_constant hc]
    exact .inr hc
  · exact .inl (hs.renameVariable_mem (mem_varsOf.mpr ⟨by simpa using hc, .inr ⟨j, hj, hw⟩⟩))

/-! ## Blocks of any length -/

namespace Block

theorem forall_mem_assignConstant {P : Instruction → Prop} {l : Label} {v : Variable} {k : Value}
    (hzero : P ⟨l, .zero v⟩) (hup : P ⟨.empty, .increase v⟩) : ∀ j ∈ assignConstant l v k, P j := by
  intro j hj
  rcases List.mem_cons.mp hj with rfl | hj
  · exact hzero
  · rw [List.eq_of_mem_replicate hj]
    exact hup

theorem forall_mem_jumpEqualConstant {P : Instruction → Prop} {l target skip : Label}
    {v z : Variable} {k : Value} (hcopy : P ⟨l, .assign z v⟩)
    (htest : P ⟨.empty, .jumpZero z skip⟩) (hdown : P ⟨.empty, .decrease z⟩)
    (hlast : P ⟨.empty, .jumpNotZero z skip⟩) (hgoto : P ⟨.empty, .goto target⟩)
    (hskip : P ⟨skip, .neutral v⟩) : ∀ j ∈ jumpEqualConstant l v k target skip z, P j := by
  intro j hj
  rcases List.mem_append.mp hj with hj | hj
  · rcases List.mem_cons.mp hj with rfl | hj
    · exact hcopy
    · obtain ⟨pair, hp, hj⟩ := List.mem_flatten.mp hj
      rw [List.eq_of_mem_replicate hp] at hj
      rcases List.mem_pair.mp hj with rfl | rfl
      · exact htest
      · exact hdown
  · simp only [List.mem_cons, List.not_mem_nil, or_false] at hj
    rcases hj with rfl | rfl | rfl
    · exact hlast
    · exact hgoto
    · exact hskip

end Block

/-- A block mentions variables of its instruction, drawn ones and constants. -/
theorem Template.vars (h : Template r i works labels block) :
    ∀ j ∈ block, ∀ v ∈ j.vars, v ∈ i.vars ∨ v ∈ works ∨ v.isConstant = true := by
  cases h with
  | basic _ => exact fun j hj v hv => .inl (List.mem_singleton.mp hj ▸ hv)
  | @quote l x c f s hf hs =>
    intro j hj v hv
    rcases hs.mem_block hj with ⟨-, ⟨holder, hh, a, ha, e⟩ | ⟨z, hz, e⟩⟩ | ⟨k, hk, rfl⟩ | rfl
    · rw [Instruction.vars, e] at hv
      rcases Splice.vars_load hv with rfl | hv
      · exact .inr (.inl (List.mem_append_left _ hh))
      · exact .inl (List.mem_cons_of_mem _ (Argument.vars_subset ha hv))
    · rw [Instruction.vars, e] at hv
      rw [List.mem_singleton.mp hv]
      exact .inr (.inl (List.mem_append_right _ hz))
    · exact .inr (hs.vars_rename hk hv)
    · rcases List.mem_pair.mp hv with rfl | rfl
      · exact .inl (List.mem_cons_self ..)
      · exact .inr (.inl (hs.renameVariable_mem (Splice.mem_varsOf.mpr ⟨rfl, .inl rfl⟩)))
  | assignConstant =>
    refine Block.forall_mem_assignConstant ?_ ?_ <;>
      simp [Instruction.vars, Command.vars, Command.operands, Command.subject?, Command.other?,
        Command.call?]
  | jumpEqualConstant =>
    refine Block.forall_mem_jumpEqualConstant ?_ ?_ ?_ ?_ ?_ ?_ <;>
      simp [Instruction.vars, Command.vars, Command.operands, Command.subject?, Command.other?,
        Command.call?, or_imp, forall_and]
  | _ =>
    simp +contextual [Block.zero, Block.goto, Block.assignSelf, Block.assign, Block.jumpZero,
      Block.jumpEqualSelf, Block.jumpEqualVariable, Block.jumpEqualCall, Instruction.vars,
      Command.vars, Command.operands, Command.subject?, Command.other?, Command.call?, or_imp,
      forall_and]

/-! ## Drawn names -/

/-- The names drawn for an instruction: different work variables that it does not mention, and
named labels. -/
structure Drawn (i : Instruction) (works : List Variable) (labels : List Label) : Prop where
  nodup : works.Nodup
  work : ∀ w ∈ works, ∃ k, w = .work k
  new : ∀ w ∈ works, w ∉ i.vars
  named : ∀ l ∈ labels, l.isNamed = true

theorem Drawn.isConstant {i : Instruction} {works : List Variable} {labels : List Label}
    (h : Drawn i works labels) {w : Variable} (hw : w ∈ works) : w.isConstant = false := by
  obtain ⟨k, rfl⟩ := h.work w hw
  rfl

/-- New names are drawn for every instruction whose variables are old. -/
theorem Drawn.of_new {n n' : SLanguage.Names} {i : Instruction} {works : List Variable}
    {labels : List Label} (hnd : works.Nodup) (hw : ∀ w ∈ works, n.NewVar n' w)
    (hl : ∀ l ∈ labels, n.NewLabel n' l) (hv : ∀ v ∈ i.vars, n.OldVar v) :
    Drawn i works labels := by
  refine ⟨hnd, fun w hm => ?_, fun w hm hi => ?_, fun l hm => (hl l hm).isNamed⟩
  · obtain ⟨k, rfl, -⟩ := hw w hm
    exact ⟨k, rfl⟩
  · exact (hw w hm).ne_old (hv w hi) rfl

/-- Every variable of the sequence is old. -/
def Names.CoversVars (n : SLanguage.Names) (code : List Instruction) : Prop :=
  ∀ i ∈ code, ∀ v ∈ i.vars, n.OldVar v

namespace Pieces

variable {n n' : SLanguage.Names} {ps : List Piece}

theorem coversVars (hp : Pieces r n n' ps) (h : n.CoversVars (ps.map (·.instruction))) :
    n'.CoversVars (ps.flatMap (·.block)) := by
  intro j hj v hv
  obtain ⟨p, hm, hj⟩ := List.mem_flatMap.mp hj
  rcases (hp.template hm).vars j hj v hv with hv | hv | hv
  · exact hp.draws.le.oldVar (h _ (List.mem_map.mpr ⟨p, hm, rfl⟩) v hv)
  · exact hp.draws.oldVar_work (List.mem_flatMap.mpr ⟨p, hm, hv⟩)
  · rintro k rfl; cases hv

theorem drawn (hp : Pieces r n n' ps) (h : n.CoversVars (ps.map (·.instruction))) {p : Piece}
    (hm : p ∈ ps) : Drawn p.instruction p.works p.labels :=
  .of_new ((List.nodup_flatMap.mp hp.draws.workNodup).1 p hm)
    (fun w hw => hp.draws.works w (List.mem_flatMap.mpr ⟨p, hm, hw⟩))
    (fun l hl => hp.draws.labels l (List.mem_flatMap.mpr ⟨p, hm, hl⟩))
    (h _ (List.mem_map.mpr ⟨p, hm, rfl⟩))

end Pieces

/-! ## Labels -/

theorem Label.isNamed_of_ne {l : Label} (he : l ≠ .empty) (hx : l ≠ .exit) : l.isNamed = true := by
  cases l with
  | empty => exact absurd rfl he
  | exit => exact absurd rfl hx
  | named name => rfl

theorem attached_append (xs ys : List Instruction) :
    attached (xs ++ ys) = attached xs ++ attached ys := by
  simp [attached]

theorem attached_flatMap {α : Type} (xs : List α) (f : α → List Instruction) :
    attached (xs.flatMap f) = xs.flatMap fun x => attached (f x) := by
  simp [attached, List.map_flatMap, List.filter_flatMap]

theorem attached_cons_cons (i j : Instruction) (rest : List Instruction) :
    attached (i :: j :: rest) = attached [i] ++ attached (j :: rest) :=
  attached_append [i] (j :: rest)

theorem attached_empty (c : Command) : attached [⟨.empty, c⟩] = [] := rfl

theorem attached_named {l : Label} (h : l.isNamed = true) (c : Command) : attached [⟨l, c⟩] = [l] :=
  List.filter_cons_of_pos h

theorem attached_eq_nil {code : List Instruction} (h : ∀ i ∈ code, i.label = .empty) :
    attached code = [] := by
  refine List.filter_eq_nil_iff.mpr fun l hl => ?_
  obtain ⟨i, hi, rfl⟩ := List.mem_map.mp hl
  rw [h i hi]
  exact Bool.false_ne_true

/-- The labels of a block are the one of its instruction and drawn ones. -/
theorem Template.label (h : Template r i works labels block) :
    ∀ j ∈ block, j.label = .empty ∨ j.label = i.label ∨ j.label ∈ labels := by
  cases h with
  | basic _ => exact fun j hj => .inr (.inl (by rw [List.mem_singleton.mp hj]))
  | @quote l x c f s hf hs =>
    intro j hj
    rcases hs.mem_block hj with ⟨e | e, -⟩ | ⟨k, hk, rfl⟩ | rfl
    · exact .inr (.inl e)
    · exact .inl e
    · cases hl : k.label with
      | empty => exact .inl (by rw [Instruction.rename, hl]; rfl)
      | exit =>
        refine .inr (.inr ?_)
        rw [Instruction.rename, hl]
        exact List.mem_cons_self ..
      | named name =>
        refine .inr (.inr (List.mem_cons_of_mem _ ?_))
        exact (hs.renameLabel_mem (mem_attached.mpr ⟨by rw [hl]; rfl, k, hk, rfl⟩)).1
    · exact .inr (.inr (List.mem_cons_self ..))
  | assignConstant => refine Block.forall_mem_assignConstant ?_ ?_ <;> simp
  | jumpEqualConstant => refine Block.forall_mem_jumpEqualConstant ?_ ?_ ?_ ?_ ?_ ?_ <;> simp
  | _ =>
    simp [Block.zero, Block.goto, Block.assignSelf, Block.assign, Block.jumpZero,
      Block.jumpEqualSelf, Block.jumpEqualVariable, Block.jumpEqualCall]

/-- Well formed, and no instruction stands at the exit. A label there would name the end of a copy
and thus stand twice. -/
structure Regular (r : Registry) (code : List Instruction) : Prop extends WellFormed r code where
  noExit : ∀ i ∈ code, i.label ≠ .exit

/-- Every body is regular. -/
def Registry.Regular (r : Registry) : Prop :=
  ∀ name f, r.get? name = some f → SLanguage.Regular r f.body

namespace Splice

variable {s : Splice} {c : Call} {body : List Instruction}

theorem attached_relabelFirst (l : Label) {x : Instruction} {xs : List Instruction}
    (h : ∀ i ∈ x :: xs, i.label = .empty) : attached (relabelFirst l (x :: xs)) =
      [l].filter (·.isNamed) := by
  have hx : attached xs = [] := attached_eq_nil fun i hi => h i (List.mem_cons_of_mem _ hi)
  change attached ([_] ++ xs) = _
  rw [attached_append, hx, List.append_nil]
  rfl

theorem labelsOf_eq (h : (attached body).Nodup) : labelsOf body = attached body := by
  change (attached body).eraseDups = _
  generalize attached body = ls at h
  induction ls with
  | nil => rfl
  | cons l ls ih =>
    obtain ⟨hl, hls⟩ := List.nodup_cons.mp h
    have e : ls.filter (fun m => !m == l) = ls :=
      List.filter_eq_self.mpr fun m hm => by
        have : m ≠ l := fun e => hl (e ▸ hm)
        simpa using this
    rw [List.eraseDups_cons, e, ih hls]

/-- The labels of the copy are the ones drawn for it, in order. -/
theorem Names.attached_copy (hs : s.Names c body) (hu : (attached body).Nodup)
    (hx : ∀ i ∈ body, i.label ≠ .exit) (hn : ∀ l ∈ s.labels.map (·.2), l.isNamed = true) :
    attached (s.copy body) = s.labels.map (·.2) := by
  have hnamed : ∀ i ∈ body, (s.renameLabel i.label).isNamed = i.label.isNamed := by
    intro i hi
    cases hl : i.label with
    | empty => rfl
    | exit => exact absurd hl (hx i hi)
    | named name =>
      rw [← hl]
      have hm : i.label ∈ attached body := mem_attached.mpr ⟨by rw [hl]; rfl, i, hi, rfl⟩
      rw [hn _ (hs.renameLabel_mem hm).1, hl]
      rfl
  have hcopy : attached (s.copy body) = (attached body).map s.renameLabel := by
    simp only [attached, copy, List.map_map, List.filter_map]
    refine congrArg _ (List.filter_congr fun i hi => ?_)
    exact hnamed i hi
  have hkeys : s.labels.map (·.1) = attached body := by rw [hs.labels, labelsOf_eq hu]
  rw [hcopy, ← hkeys, List.map_map]
  refine List.map_congr_left fun p hp => ?_
  have hm : p.1 ∈ attached body := hkeys ▸ List.mem_map.mpr ⟨p, hp, rfl⟩
  have hl := (hs.renameLabel_mem hm).2
  rw [lookup_of_mem (hkeys ▸ hu) hp] at hl
  exact (Option.some.inj hl).symm

end Splice

/-- The label of the instruction and the drawn ones stand in the block once each. -/
theorem Template.attached_perm (h : Template r i works labels block) (hr : r.Regular)
    (hn : ∀ l ∈ labels, l.isNamed = true) :
    (attached block).Perm (attached [i] ++ labels) := by
  cases h with
  | basic _ => rw [List.append_nil]
  | @quote l x c f s hf hs =>
    have hprelude : attached (Splice.relabelFirst l (s.prelude c)) = [l].filter (·.isNamed) := by
      cases hp : s.prelude c with
      | nil => exact absurd hp hs.prelude_ne_nil
      | cons y ys =>
        exact Splice.attached_relabelFirst l fun i hi => (Splice.mem_prelude (hp ▸ hi)).1
    have hbody := hr _ f hf
    have hcopy := hs.attached_copy hbody.unique hbody.noExit fun l hl =>
      hn l (List.mem_cons_of_mem _ hl)
    have hfinish : attached [⟨s.finish, .assign x (s.renameVariable .result)⟩] = [s.finish] := by
      simp [attached, hn s.finish (List.mem_cons_self ..)]
    rw [hs.block_eq, attached_append, attached_append, hprelude, hcopy, hfinish]
    exact (List.perm_append_singleton _ _).append_left _
  | @assignConstant l v k =>
    have hups : attached (List.replicate k.toNat ⟨.empty, .increase v⟩) = [] :=
      attached_eq_nil fun i hi => by rw [List.eq_of_mem_replicate hi]
    change (attached ([⟨l, .zero v⟩] ++ _)).Perm _
    rw [attached_append, hups]
    exact .refl _
  | @jumpEqualConstant l target skip v z k =>
    have hloop : attached (List.replicate k.toNat
        [⟨.empty, .jumpZero z skip⟩, ⟨.empty, .decrease z⟩]).flatten = [] := by
      refine attached_eq_nil fun i hi => ?_
      obtain ⟨pair, hp, hi⟩ := List.mem_flatten.mp hi
      rw [List.eq_of_mem_replicate hp] at hi
      rcases List.mem_pair.mp hi with rfl | rfl <;> rfl
    change (attached ([⟨l, .assign z v⟩] ++ _ ++ _)).Perm _
    rw [attached_append, attached_append, hloop, List.append_nil, attached_cons_cons,
      attached_cons_cons, attached_empty, attached_empty,
      attached_named (hn skip (List.mem_cons_self ..))]
    exact .refl _
  | @jumpEqualVariable l target differ loop finish v w z z' _ =>
    simp only [Block.jumpEqualVariable, attached_cons_cons, attached_empty, List.nil_append,
      attached_named (hn differ (by simp)), attached_named (hn loop (by simp)),
      attached_named (hn finish (by simp))]
    exact (List.perm_append_singleton differ [loop, finish]).append_left _
  | @assign l v w z drain restore done _ =>
    simp only [Block.assign, attached_cons_cons, attached_empty, List.nil_append,
      attached_named (hn drain (by simp)), attached_named (hn restore (by simp)),
      attached_named (hn done (by simp))]
    exact .refl _
  | @jumpZero l target skip v =>
    simp only [Block.jumpZero, attached_cons_cons, attached_empty, List.nil_append,
      attached_named (hn skip (by simp))]
    exact .refl _
  | @zeroFresh v loop =>
    simp only [Block.zero, attached_cons_cons, attached_empty, List.append_nil, List.nil_append,
      attached_named (hn loop (by simp))]
    exact .refl _
  | _ =>
    simp only [Block.zero, Block.goto, Block.assignSelf, Block.jumpEqualSelf, Block.jumpEqualCall,
      attached_cons_cons, attached_empty, List.append_nil]
    exact .refl _

/-- The label of the instruction is old, and the others in the block are new. -/
theorem Template.nodup_attached (h : Template r i works labels block) (hr : r.Regular)
    {n n' : SLanguage.Names} (hd : Draws n n' works labels) (hn : n.Covers i) :
    (attached block).Nodup := by
  refine (h.attached_perm hr fun m hm => (hd.labels m hm).isNamed).nodup_iff.mpr ?_
  refine List.nodup_append.mpr ⟨?_, hd.labelNodup, fun m hm m' hm' e => ?_⟩
  · exact List.Nodup.filter _ (List.nodup_singleton i.label)
  · obtain ⟨-, j, hj, rfl⟩ := mem_attached.mp hm
    rw [List.mem_singleton.mp hj] at e
    exact (hd.labels m' hm').ne_old hn.label e.symm

/-- A jump of a splice goes to a label of the copy, or it was a jump to nowhere in the body. -/
theorem Splice.Names.target_block {s : Splice} {c : Call} {body : List Instruction}
    (hs : s.Names c body) {l : Label} {v : Variable} {j : Instruction}
    (hj : j ∈ s.block l v c body) {t : Label} (ht : j.target? = some t) :
    t ∈ s.finish :: s.labels.map (·.2) ∨ Dangling body t := by
  rcases hs.mem_block hj with ⟨-, ⟨holder, -, a, -, e⟩ | ⟨z, -, e⟩⟩ | ⟨k, hk, rfl⟩ | rfl
  · rw [Instruction.target?, e] at ht
    cases a with
    | call name arguments => cases ht
    | leaf v => cases v <;> cases ht
  · rw [Instruction.target?, e] at ht; cases ht
  · rw [Instruction.target?_rename] at ht
    obtain ⟨m, hm, rfl⟩ := Option.map_eq_some_iff.mp ht
    by_cases hx : m = .exit
    · rw [hx]
      exact .inl (List.mem_cons_self ..)
    by_cases hin : m ∈ attached body
    · exact .inl (List.mem_cons_of_mem _ (hs.renameLabel_mem hin).1)
    · rw [hs.renameLabel_of_not_mem hx hin]
      exact .inr ⟨⟨k, hk, hm⟩, hx, hin⟩
  · cases ht

/-- A jump of the block goes where the instruction may go, to the label of the instruction or to a
drawn one, or it was a jump to nowhere in the body of a function that is called. -/
theorem Template.target_cases (h : Template r i works labels block) :
    ∀ j ∈ block, ∀ t, j.target? = some t →
      i.target? = some t ∨ t = i.label ∧ t ≠ .empty ∨ t ∈ labels ∨
        ∃ name ∈ i.callNames, ∃ f, r.get? name = some f ∧ Dangling f.body t := by
  cases h with
  | basic _ => exact fun j hj t ht => .inl (List.mem_singleton.mp hj ▸ ht)
  | @quote l x c f s hf hs =>
    intro j hj t ht
    rcases hs.target_block hj ht with hm | hd
    · exact .inr (.inr (.inl hm))
    · exact .inr (.inr (.inr ⟨c.name, List.mem_cons_self .., f, hf, hd⟩))
  | zero hl => simp [Block.zero, Instruction.target?, Command.target?, hl]
  | assignConstant =>
    refine Block.forall_mem_assignConstant ?_ ?_ <;> simp [Instruction.target?, Command.target?]
  | jumpEqualConstant =>
    refine Block.forall_mem_jumpEqualConstant ?_ ?_ ?_ ?_ ?_ ?_ <;>
      simp [Instruction.target?, Command.target?]
  | _ =>
    simp [Block.zero, Block.goto, Block.assignSelf, Block.assign, Block.jumpZero,
      Block.jumpEqualSelf, Block.jumpEqualVariable, Block.jumpEqualCall, Instruction.target?,
      Command.target?]

/-- Where the instruction does not stand at the exit, a jump of the block goes where the instruction
may go, or stays in the block, or it was a jump to nowhere in a body. -/
theorem Template.targets (h : Template r i works labels block) (hx : i.label ≠ .exit) :
    ∀ j ∈ block, ∀ t, j.target? = some t → i.target? = some t ∨ t ∈ attached [i] ++ labels ∨
      ∃ name ∈ i.callNames, ∃ f, r.get? name = some f ∧ Dangling f.body t := by
  intro j hj t ht
  rcases h.target_cases j hj t ht with hi | ⟨rfl, he⟩ | hl | hd
  · exact .inl hi
  · refine .inr (.inl (List.mem_append_left _ ?_))
    exact mem_attached.mpr ⟨Label.isNamed_of_ne he hx, i, List.mem_singleton.mpr rfl, rfl⟩
  · exact .inr (.inl (List.mem_append_right _ hl))
  · exact .inr (.inr hd)

/-! ## Operands and calls -/

/-- The block writes to no constant if the instruction and the bodies do not. -/
theorem Template.writable (h : Template r i works labels block) (hr : r.Regular)
    (hw : ∀ w ∈ works, w.isConstant = false)
    (hi : ∀ v ∈ i.command.operands, v.isConstant = false) :
    ∀ j ∈ block, ∀ v ∈ j.command.operands, v.isConstant = false := by
  cases h with
  | basic _ => exact fun j hj => List.mem_singleton.mp hj ▸ hi
  | @quote l x c f s hf hs =>
    intro j hj v hv
    rcases hs.mem_block hj with ⟨-, ⟨holder, hh, a, ha, e⟩ | ⟨z, hz, e⟩⟩ | ⟨k, hk, rfl⟩ | rfl
    · have hh := hw holder (List.mem_append_left _ hh)
      rw [e] at hv
      cases a with
      | call name arguments => rw [List.mem_singleton.mp hv]; exact hh
      | leaf v' =>
        cases v' with
        | constant k => rw [List.mem_singleton.mp hv]; exact hh
        | _ =>
          rcases List.mem_pair.mp hv with rfl | rfl
          · exact hh
          · rfl
    · rw [e] at hv
      rw [List.mem_singleton.mp hv]
      exact hw z (List.mem_append_right _ hz)
    · rw [Instruction.operands_rename] at hv
      obtain ⟨v', hv', rfl⟩ := List.mem_map.mp hv
      have hc := ((hr _ f hf).fits k hk).writable v' hv'
      refine hw _ (hs.renameVariable_mem (Splice.mem_varsOf.mpr ⟨hc, .inr ⟨k, hk, ?_⟩⟩))
      exact List.mem_append_left _ hv'
    · rcases List.mem_pair.mp hv with rfl | rfl
      · exact hi v (List.mem_cons_self ..)
      · exact hw _ (hs.renameVariable_mem (Splice.mem_varsOf.mpr ⟨rfl, .inl rfl⟩))
  | assignConstant =>
    refine Block.forall_mem_assignConstant ?_ ?_ <;>
      simp_all [Command.operands, Command.subject?, Command.other?]
  | jumpEqualConstant =>
    refine Block.forall_mem_jumpEqualConstant ?_ ?_ ?_ ?_ ?_ ?_ <;>
      simp_all [Command.operands, Command.subject?, Command.other?]
  | _ =>
    simp_all [Block.zero, Block.goto, Block.assignSelf, Block.assign, Block.jumpZero,
      Block.jumpEqualSelf, Block.jumpEqualVariable, Block.jumpEqualCall, Command.operands,
      Command.subject?, Command.other?, or_imp, forall_and]

/-- A block calls what its instruction calls, or what the body of a function called there calls. -/
theorem Template.callNames (h : Template r i works labels block) :
    ∀ j ∈ block, ∀ n ∈ j.callNames, n ∈ i.callNames ∨ ∃ a ∈ i.callNames, r.Calls a n := by
  cases h with
  | basic _ => exact fun j hj n hn => .inl (List.mem_singleton.mp hj ▸ hn)
  | @quote l x c f s hf hs =>
    intro j hj n hn
    rcases hs.mem_block hj with ⟨-, ⟨holder, -, a, ha, e⟩ | ⟨z, -, e⟩⟩ | ⟨k, hk, rfl⟩ | rfl
    · rw [Instruction.callNames, Instruction.call?, e] at hn
      cases a with
      | call name arguments =>
        exact .inl (List.mem_cons_of_mem _ (Argument.mem_listNames.mpr ⟨_, ha, hn⟩))
      | leaf v => cases v <;> cases hn
    · rw [Instruction.callNames, Instruction.call?, e] at hn; cases hn
    · rw [Instruction.callNames_rename] at hn
      exact .inr ⟨c.name, List.mem_cons_self .., f, hf, mem_calleesOf.mpr ⟨k, hk, hn⟩⟩
    · cases hn
  | assignConstant =>
    refine Block.forall_mem_assignConstant ?_ ?_ <;>
      simp [Instruction.callNames, Instruction.call?, Command.call?]
  | jumpEqualConstant =>
    refine Block.forall_mem_jumpEqualConstant ?_ ?_ ?_ ?_ ?_ ?_ <;>
      simp [Instruction.callNames, Instruction.call?, Command.call?]
  | _ =>
    simp +contextual [Block.zero, Block.goto, Block.assignSelf, Block.assign, Block.jumpZero,
      Block.jumpEqualSelf, Block.jumpEqualVariable, Block.jumpEqualCall, Instruction.callNames,
      Instruction.call?, Command.call?]

end SLanguage
