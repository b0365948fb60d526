import SLanguage.Proofs.Simulation
import SLanguage.Proofs.Strays

/-!
# Expansion resolves no jump, unless a label is captured

A splice renames the labels that stand in a body, but leaves a jump to nowhere as it is. Where the
same label stands in the caller, written there or drawn later, the jump goes there after all. Where
no label of the expanded sequence dangles in a body (`Registry.Uncaptured`), a pass takes a lost run
to a lost run (`Pieces.lost`), and a program that jumps to nowhere when it runs directly is done at
no degree.
-/

namespace SLanguage

open Names

/-! ## Splices -/

variable {r : Registry} {code : List Instruction} {off : Nat}

namespace Splice

/-- An argument that strays does so when it is loaded. -/
theorem lost_loads {holders : List Variable} {as : List Argument} {f : Frame}
    (hs : Seg (code.map (·.command)) off (List.zipWith load holders as))
    (hlen : holders.length = as.length) (hc : ∀ h ∈ holders, h.isConstant = false)
    (hnew : ∀ a ∈ as, ∀ u ∈ a.vars, u ∉ holders) (h : Argument.ListStrays r f as) :
    Lost r code (off, f) := by
  induction as generalizing holders off f with
  | nil => exact h.elim
  | cons a as ih =>
    cases holders with
    | nil => cases hlen
    | cons z rest =>
      obtain ⟨l, hi⟩ := exists_label hs.head
      rcases h with h | ⟨⟨w, hw⟩, h⟩
      · cases a with
        | leaf v => exact h.elim
        | call name arguments => exact .call hi rfl h
      · have hx : (load z a).Executes r f (f.set z w) .next := executes_load.mpr ⟨w, hw, rfl, rfl⟩
        have hmove : Moves r code (off, f) (off + 1, f.set z w) := ⟨_, _, hi, hx, .next⟩
        have hget {b : Argument} (hb : b ∈ as) : ∀ u ∈ b.vars, (f.set z w).get u = f.get u := by
          intro u hu
          rw [f.get_set (hc z (.head _)), if_neg]
          rintro rfl
          exact hnew b (.tail _ hb) u hu (.head _)
        have h' : Argument.ListStrays r (f.set z w) (as.map id) :=
          Argument.listStrays_map (fun b hb => Argument.Strays.congr (hget hb))
            (fun b hb _ => (Argument.worth_congr (hget hb)).mpr) h
        rw [List.map_id] at h'
        exact .move hmove (ih hs.tail (Nat.succ.inj hlen) (fun h hm => hc h (.tail _ hm))
          (fun b hb u hu hm => hnew b (.tail _ hb) u hu (.tail _ hm)) h')

variable {s : Splice} {c : Call} {body : List Instruction} {f b h : Frame} {l : Label}
  {v : Variable}

/-- Where the body is lost, so is the copy. -/
theorem Locked.lost (hl : Locked s body f b h) (hp : Placed code s l v c body off)
    (hfree : ∀ t, Dangling body t → t ∉ attached code) {pc : Nat} (hlost : Lost r body (pc, b)) :
    Lost r code (off + (s.prelude c).length + pc, h) := by
  generalize hspot : (pc, b) = spot at hlost
  induction hlost generalizing pc b h with
  | @jump _ i b' t hi hx ht =>
    subst hspot
    have him := List.mem_of_getElem? hi
    obtain ⟨w, -, hexec⟩ := id hx
    obtain ⟨htarget, hne⟩ := Command.execute_jump hexec
    obtain ⟨h', hx', -⟩ := hl.executes hp him hx
    rw [Signal.rename, hp.names.renameLabel_of_not_mem hne ht, Signal.goto_of_ne hne] at hx'
    exact .jump (hp.getElem?_copy hi) hx' (hfree t ⟨⟨i, him, htarget⟩, hne, ht⟩)
  | @call _ i call hi hc hs =>
    subst hspot
    have him := List.mem_of_getElem? hi
    have hc' : (i.rename s.renameVariable s.renameLabel).command.call? =
        some (call.rename s.renameVariable) := by
      rw [Instruction.rename, Command.call?_rename, hc]
      rfl
    refine .call (hp.getElem?_copy hi) hc' (hs.rename fun v hv => ?_)
    exact hl.inPlay v (inPlay_of_mem him (Command.vars_of_call? hc hv))
  | @move _ c' hm _ ih =>
    subst hspot
    obtain ⟨h', hm', hl'⟩ := hl.move hp hm
    exact .move hm' (ih hl' rfl)

/-- Where the call strays, the splice is lost. -/
theorem Placed.lost {fn : Function} (hf : r.get? c.name = some fn)
    (hp : Placed code s l v c fn.body off) (hfree : ∀ t, Dangling fn.body t → t ∉ attached code)
    (h : c.toArgument.Strays r f) : Lost r code (off, f) := by
  rcases h with h | ⟨fn', vs, hf', hvs, h⟩
  · exact lost_loads hp.prelude.1 hp.names.holders
      (fun w hw => hp.isConstant w (List.mem_append_left _ hw)) hp.holders_new h
  · rw [hf] at hf'; cases hf'
    refine (hp.reaches_prelude (Argument.listWorth_iff.mp hvs)).lost ?_
    rintro ⟨_, h'⟩ ⟨rfl, hl⟩
    exact hl.lost hp hfree h.lost

end Splice

/-! ## Blocks -/

/-- The labels that dangle in a sequence. -/
def danglingLabels (code : List Instruction) : List Label :=
  (code.filterMap (·.target?)).filter fun t => t ≠ .exit ∧ t ∉ attached code

theorem mem_danglingLabels {t : Label} : t ∈ danglingLabels code ↔ Dangling code t := by
  rw [danglingLabels, List.mem_filter, List.mem_filterMap, decide_eq_true_iff]
  exact ⟨fun h => ⟨h.1, h.2.1, h.2.2⟩, fun h => ⟨h.target, h.ne_exit, h.not_mem⟩⟩

/-- No label that dangles in one of these functions stands in the sequence. -/
def Registry.Uncaptured (r : Registry) (names : List String) (code : List Instruction) : Prop :=
  ∀ name ∈ names, ∀ f, r.get? name = some f → ∀ t, Dangling f.body t → t ∉ attached code

instance (names : List String) : Decidable (r.Uncaptured names code) :=
  decidable_of_iff (∀ name ∈ names, ∀ f ∈ r.get? name, ∀ t ∈ danglingLabels f.body,
    t ∉ attached code) (by simp only [mem_danglingLabels, Option.mem_def, Registry.Uncaptured])

section
variable {i : Instruction} {works : List Variable} {labels : List Label}
  {block : List Instruction}

/-- Where a call of the instruction strays, its block is lost. -/
theorem Template.lost (h : Template r i works labels block) (hd : Drawn i works labels)
    (hs : Seg code off block) (hfree : r.Uncaptured i.callNames code) {call : Call} {f : Frame}
    (hc : i.command.call? = some call) (hst : call.toArgument.Strays r f) :
    Lost r code (off, f) := by
  cases h with
  | basic hb =>
    obtain ⟨l, command⟩ := i
    cases command <;> first | (cases hc; done) | cases hb
  | quote hf hs' =>
    cases hc
    exact Splice.Placed.lost hf ⟨hs', hd, hs⟩ (hfree _ (List.mem_cons_self ..) _ hf) hst
  | jumpEqualCall =>
    cases hc
    exact .call hs.head rfl hst
  | _ => cases hc

/-- A block that writes to no constant stands for an instruction that does not. -/
theorem Template.assignable (h : Template r i works labels block) (hb : Assignable block)
    {v : Variable} (hv : i.command.written? = some v) : v.isConstant = false := by
  cases h with
  | basic _ => exact hb i (List.mem_singleton.mpr rfl) v hv
  | quote hf hs => cases hv; exact hb _ (hs.answer_mem _ _) _ rfl
  | goto => cases hv
  | jumpZero => cases hv
  | jumpEqualConstant => cases hv
  | jumpEqualSelf => cases hv
  | jumpEqualVariable => cases hv
  | jumpEqualCall => cases hv
  | _ => cases hv; exact hb _ (.head _) _ rfl

end

/-! ## Passes -/

variable {n n' : SLanguage.Names} {ps : List Piece}

namespace Pieces

theorem mem_attached_old (hp : Pieces r n n' ps) {l : Label}
    (hl : l ∈ attached (ps.map (·.instruction))) : l ∈ attached (ps.flatMap (·.block)) := by
  obtain ⟨hn, i, hi, rfl⟩ := mem_attached.mp hl
  obtain ⟨p, hm, rfl⟩ := List.mem_map.mp hi
  obtain ⟨j, hj, hjl⟩ := (hp.template hm).first hn
  exact mem_attached.mpr ⟨hn, j, List.mem_flatMap.mpr ⟨p, hm, List.mem_of_getElem? hj⟩, hjl⟩

theorem mem_attached_new (hp : Pieces r n n' ps) {l : Label}
    (hl : l ∈ attached (ps.flatMap (·.block))) :
    l ∈ attached (ps.map (·.instruction)) ∨ n.NewLabel n' l := by
  obtain ⟨hn, j, hj, rfl⟩ := mem_attached.mp hl
  obtain ⟨p, hm, hj⟩ := List.mem_flatMap.mp hj
  rcases (hp.template hm).label j hj with h | h | h
  · rw [h] at hn; cases hn
  · exact .inl (mem_attached.mpr ⟨hn, _, List.mem_map.mpr ⟨p, hm, rfl⟩, h.symm⟩)
  · exact .inr (hp.draws.labels _ (List.mem_flatMap.mpr ⟨p, hm, h⟩))

theorem assignable_old (hp : Pieces r n n' ps) (h : Assignable (ps.flatMap (·.block))) :
    Assignable (ps.map (·.instruction)) := by
  intro i hi v hv
  obtain ⟨p, hm, rfl⟩ := List.mem_map.mp hi
  exact (hp.template hm).assignable (fun j hj => h j (List.mem_flatMap.mpr ⟨p, hm, hj⟩)) hv

/-- A pass takes a lost run to a lost run, if it captures no jump. -/
theorem lost (hp : Pieces r n n' ps) (hn : Faithful n ps)
    (hfree : ∀ p ∈ ps, r.Uncaptured p.instruction.callNames (ps.flatMap (·.block)))
    (htarget : ∀ t, Dangling (ps.map (·.instruction)) t → t ∉ attached (ps.flatMap (·.block)))
    {k : Nat} {f h : Frame} (hf : Matches n ps f h)
    (hlost : Lost r (ps.map (·.instruction)) (k, f)) :
    Lost r (ps.flatMap (·.block)) (place ps k, h) := by
  generalize hspot : (k, f) = spot at hlost
  induction hlost generalizing k f h with
  | @jump _ i f' t hi hx ht =>
    subst hspot
    have him := List.mem_of_getElem? hi
    obtain ⟨w, -, hexec⟩ := id hx
    obtain ⟨hit, hne⟩ := Command.execute_jump hexec
    obtain ⟨h1, hx1, -⟩ := hx.agree (hn.covers i him) hf.old
    rw [List.getElem?_map] at hi
    obtain ⟨p, hk, rfl⟩ := Option.map_eq_some_iff.mp hi
    rw [← Signal.goto_of_ne hne] at hx1
    refine ((hp.realizes hn hk).jump h h1 t (hf.scratch p (List.mem_of_getElem? hk)) hx1).lost ?_
    rintro c ⟨j, g, hj, hxj, -⟩
    rw [Signal.goto_of_ne hne] at hxj
    exact .jump hj hxj (htarget t ⟨⟨_, him, hit⟩, hne, ht⟩)
  | @call _ i call hi hc hs =>
    subst hspot
    have hold := hn.covers i (List.mem_of_getElem? hi)
    rw [List.getElem?_map] at hi
    obtain ⟨p, hk, rfl⟩ := Option.map_eq_some_iff.mp hi
    have hpm := List.mem_of_getElem? hk
    refine (hp.template hpm).lost (hp.drawn hn.covers hpm) (seg_place hk) (hfree p hpm) hc
      (hs.congr fun v hv => hf.old v (hold v ?_))
    exact Command.vars_of_call? hc hv
  | @move _ c' hm _ ih =>
    subst hspot
    refine (hp.advances hn hm hf).reaches.lost ?_
    rintro ⟨_, h'⟩ ⟨rfl, hf'⟩
    exact ih hf' rfl

end Pieces

/-- What the passes over a sequence keep up, if the functions that it uses are among `names`: a
jump goes to an old label, or came to nowhere from a body. -/
structure Names.Tracks (n : SLanguage.Names) (r : Registry) (names : List String)
    (code : List Instruction) : Prop where
  vars : n.CoversVars code
  label : ∀ i ∈ code, n.OldLabel i.label ∧ i.label ≠ .exit
  target : ∀ i ∈ code, ∀ t, i.target? = some t →
    n.OldLabel t ∨ ∃ name ∈ names, ∃ f, r.get? name = some f ∧ Dangling f.body t
  calls : ∀ i ∈ code, ∀ name ∈ i.callNames, r.contains name = true → name ∈ names

theorem Names.tracks_above (hx : ∀ i ∈ code, i.label ≠ .exit) :
    (above code).Tracks r (r.reachableFrom code) code where
  vars i hi := ((above_spec code).2 i hi).vars
  label i hi := ⟨((above_spec code).2 i hi).label, hx i hi⟩
  target i hi t ht := .inl (((above_spec code).2 i hi).target t ht)
  calls _ hi _ hm hk := Registry.callees_subset_reachableFrom hi hm hk

section
variable {names : List String}

theorem Pieces.tracks (hp : Pieces r n n' ps)
    (hclosed : ∀ a ∈ names, ∀ b, r.Calls a b → r.contains b = true → b ∈ names)
    (h : n.Tracks r names (ps.map (·.instruction))) :
    n'.Tracks r names (ps.flatMap (·.block)) := by
  have hold {p : Piece} (hm : p ∈ ps) : p.instruction ∈ ps.map (·.instruction) :=
    List.mem_map.mpr ⟨p, hm, rfl⟩
  have hlabel {p : Piece} (hm : p ∈ ps) {l : Label} (hl : l ∈ p.labels) : n.NewLabel n' l :=
    hp.draws.labels l (List.mem_flatMap.mpr ⟨p, hm, hl⟩)
  have hcalled {p : Piece} (hm : p ∈ ps) {name : String} {f : Function}
      (hc : name ∈ p.instruction.callNames) (hf : r.get? name = some f) : name ∈ names :=
    h.calls _ (hold hm) name hc (by rw [Registry.contains, hf]; rfl)
  refine ⟨hp.coversVars h.vars, fun j hj => ?_, fun j hj t ht => ?_, fun j hj m hm hk => ?_⟩
  all_goals obtain ⟨p, hpm, hj⟩ := List.mem_flatMap.mp hj
  · have hl := h.label _ (hold hpm)
    rcases (hp.template hpm).label j hj with e | e | e
    · rw [e]; exact ⟨fun k hk => (by cases hk), Label.noConfusion⟩
    · rw [e]; exact ⟨hp.draws.le.oldLabel hl.1, hl.2⟩
    · have hn := (hlabel hpm e).isNamed
      refine ⟨hp.draws.oldLabel_label (List.mem_flatMap.mpr ⟨p, hpm, e⟩), fun e' => ?_⟩
      rw [e'] at hn; cases hn
  · have hl := h.label _ (hold hpm)
    rcases (hp.template hpm).targets hl.2 j hj t ht with e | e | ⟨name, hc, f, hf, hd⟩
    · exact (h.target _ (hold hpm) t e).imp_left hp.draws.le.oldLabel
    · refine .inl ((List.mem_append.mp e).elim (fun e => ?_) fun e =>
        hp.draws.oldLabel_label (List.mem_flatMap.mpr ⟨p, hpm, e⟩))
      obtain ⟨-, i, hi, rfl⟩ := mem_attached.mp e
      rw [List.mem_singleton.mp hi]
      exact hp.draws.le.oldLabel hl.1
    · exact .inr ⟨name, hcalled hpm hc hf, f, hf, hd⟩
  · rcases (hp.template hpm).callNames j hj m hm with e | ⟨a, ha, hc⟩
    · exact h.calls _ (hold hpm) m e hk
    · obtain ⟨f, hf, -⟩ := id hc
      exact hclosed a (hcalled hpm ha hf) m hc hk

/-- Where the new sequence captures no jump, the pass resolves none. -/
theorem Pieces.lost_starting (hp : Pieces r n n' ps)
    (h : n.Tracks r names (ps.map (·.instruction)))
    (ha : Assignable (ps.flatMap (·.block))) (hfree : r.Uncaptured names (ps.flatMap (·.block)))
    {inputs : List Value}
    (hlost : Lost r (ps.map (·.instruction)) (0, .starting (ps.map (·.instruction)) inputs)) :
    Lost r (ps.flatMap (·.block)) (0, .starting (ps.flatMap (·.block)) inputs) := by
  refine hp.lost ⟨h.vars, fun p hm => ?_, ha⟩ (fun p hm name hc f hf => ?_) (fun t hd ht => ?_)
    (hp.matches_starting inputs) hlost
  · exact (h.label _ (List.mem_map.mpr ⟨p, hm, rfl⟩)).2
  · refine hfree name (h.calls _ (List.mem_map.mpr ⟨p, hm, rfl⟩) name hc ?_) f hf
    rw [Registry.contains, hf]; rfl
  · obtain ⟨i, hi, hit⟩ := hd.target
    -- a label that is new here is no target of the old sequence
    rcases h.target i hi t hit with ho | ⟨name, hm, f, hf, hd'⟩
    · rcases hp.mem_attached_new ht with ht | ht
      · exact hd.not_mem ht
      · exact ht.ne_old ho rfl
    · exact hfree name hm f hf t hd' ht

end

/-- What a lost run keeps up over the passes. -/
structure Names.Loses (n : SLanguage.Names) (r : Registry) (names : List String)
    (inputs : List Value) (code : List Instruction) : Prop where
  tracks : n.Tracks r names code
  lost : Assignable code → r.Uncaptured names code → Lost r code (0, .starting code inputs)

theorem Pieces.loses (hp : Pieces r n n' ps) {names : List String} {inputs : List Value}
    (hclosed : ∀ a ∈ names, ∀ b, r.Calls a b → r.contains b = true → b ∈ names)
    (h : n.Loses r names inputs (ps.map (·.instruction))) :
    n'.Loses r names inputs (ps.flatMap (·.block)) where
  tracks := hp.tracks hclosed h.tracks
  lost ha hfree := hp.lost_starting h.tracks ha hfree (h.lost (hp.assignable_old ha)
    fun name hm f hf t hd ht => hfree name hm f hf t hd (hp.mem_attached_old ht))

/-- A sequence that is lost is lost at every degree, if no jump is captured on the way. -/
theorem Registry.expandTo_lost (hx : ∀ i ∈ code, i.label ≠ .exit) {inputs : List Value}
    (hlost : Lost r code (0, .starting code inputs)) {scope : Scope} {degree : Nat} {s : Snapshot}
    (he : r.expandTo scope code degree = .ok s) (ha : Assignable s.instructions)
    (hfree : r.Uncaptured (r.reachableFrom code) s.instructions) :
    Lost r s.instructions (0, .starting s.instructions inputs) := by
  obtain ⟨n', he⟩ := expandTo_ok he
  refine (passes_preserve (fun n => n.Loses r (r.reachableFrom code) inputs)
    (fun _ _ _ h hp => hp.loses (fun _ ha _ hc hk => hc.mem_reachableFrom ha hk) h) ?_ he).lost
    ha hfree
  rw [Snapshot.instructions_ofCode]
  exact ⟨tracks_above hx, fun _ _ => hlost⟩

/-! ## Programs -/

namespace Program

/-- A program that jumps to nowhere when it runs directly is done at no degree, within any bound and
on any machine, unless its expansion captures a jump. -/
theorem unresolved_never_done (p : Program) (hx : ∀ i ∈ p.instructions, i.label ≠ .exit)
    (inputs : List Value) (degree : Nat) (s : Snapshot) (hs : p.expandTo degree = .ok s)
    (hfree : p.functions.Uncaptured p.functionsUsed s.instructions) (bound : Nat) (tier : Tier)
    (l : Label) (site : Site)
    (hfail : p.run bound { inputs, tier } = .failed (.unresolvedLabel l site)) :
    ∀ bound' tier' o, p.run bound' { inputs, degree, tier := tier' } ≠ .done o := by
  intro bound' tier' o
  have hs0 : p.expandTo 0 = .ok (.ofCode p.instructions) := rfl
  have hlost := lost_of_run hs0 hfail
  rw [Snapshot.instructions_ofCode] at hlost
  refine run_ne_done hs (fun routine hr => ?_) bound' o
  exact p.functions.expandTo_lost hx hlost hs (Routine.assignable_of_ofCode hr) hfree

/-- A function that only jumps to `target`, called where the label `A` stands on the next
instruction. -/
def straying (target : Label) : Program where
  name := "straying"
  instructions := [⟨.empty, .quote .result ⟨"F", []⟩⟩, ⟨.named "A", .increase .result⟩]
  functions := .ofList [{ name := "F", body := [⟨.empty, .goto target⟩] }]

theorem functionsUsed_straying (target : Label) : (straying target).functionsUsed = ["F"] := by
  have hf : (straying target).functions.get? "F" =
      some { name := "F", body := [⟨.empty, .goto target⟩] } :=
    (Registry.get?_insert _ _ _).trans (if_pos rfl)
  have hc : calleesOf (straying target).instructions = ["F"] := by
    rw [straying]
    simp [calleesOf, Instruction.call?, Command.call?, Call.breadthFirst, Call.walk, Call.nested,
      List.eraseDups_cons]
  rw [functionsUsed, Registry.reachableFrom, hc, Registry.reach, hf]
  simp [Registry.reach, Function.callees, calleesOf, Instruction.call?, Command.call?]

theorem straying_never_done : (straying (.named "B")).run 1 { inputs := [] } =
      .failed (.unresolvedLabel (.named "B") ⟨.function "F", 1⟩) ∧
    ∃ s, (straying (.named "B")).expandTo 3 = .ok s ∧
      (straying (.named "B")).functions.Uncaptured (straying (.named "B")).functionsUsed
        s.instructions ∧
      ∀ bound tier o, (straying (.named "B")).run bound { inputs := [], degree := 3, tier } ≠
        .done o := by
  have hx : ∀ i ∈ (straying (.named "B")).instructions, i.label ≠ .exit := by decide
  have hfail : (straying (.named "B")).run 1 { inputs := [] } =
      .failed (.unresolvedLabel (.named "B") ⟨.function "F", 1⟩) := by decide +kernel
  have hok : ∃ s ∈ ((straying (.named "B")).expandTo 3).toOption,
      (straying (.named "B")).functions.Uncaptured ["F"] s.instructions := by decide +kernel
  obtain ⟨s, hs, hfree⟩ := hok
  cases he : (straying (.named "B")).expandTo 3 with
  | error e => rw [he] at hs; cases hs
  | ok s' =>
    rw [he] at hs; cases hs
    rw [← functionsUsed_straying (.named "B")] at hfree
    exact ⟨hfail, s, rfl, hfree, unresolved_never_done _ hx [] 3 s he hfree 1 _ _ _ hfail⟩

/-- The label of the caller captures the jump: the direct run fails, the expanded one is done. -/
theorem captured_by_caller : (straying (.named "A")).ExitFree ∧
    (straying (.named "A")).run 1 { inputs := [] } =
      .failed (.unresolvedLabel (.named "A") ⟨.function "F", 1⟩) ∧
    ((straying (.named "A")).run 4 { inputs := [], degree := 1 }).bind (fun o => .done o.result) =
      .done 1 := by
  decide +kernel

end Program

end SLanguage
