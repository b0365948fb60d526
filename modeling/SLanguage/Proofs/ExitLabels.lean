import SLanguage.Proofs.Meaning

/-!
# Labels at the exit

A label `exit` before an instruction is no target: neither the check nor the machine looks at it, so
a program runs directly as it runs without these labels. Passes keep such labels where they are and
treat them like any other, with two exceptions. A `zero` loops on its own label, and there the loop
leaves the program; and in a copy of a body the exit is the end of the copy, so a label at the exit
stands twice. A sequence without these two has the same expansion with and without the labels.
-/

namespace SLanguage

/-! ## Taking the labels away -/

def Label.withoutExit : Label → Label
  | .exit => .empty
  | l => l

def Instruction.withoutExit (i : Instruction) : Instruction :=
  { i with label := i.label.withoutExit }

def Function.withoutExit (f : Function) : Function :=
  { f with body := f.body.map (·.withoutExit) }

def Registry.withoutExit (r : Registry) : Registry where
  table := r.table.map fun _ f => f.withoutExit
  name_eq name g h := by
    rw [Std.TreeMap.getElem?_map] at h
    obtain ⟨f, hf, rfl⟩ := Option.map_eq_some_iff.mp h
    exact r.name_eq name f hf

/-- The program with no label at the exit, its functions included. -/
def Program.withoutExit (p : Program) : Program :=
  { p with
    instructions := p.instructions.map (·.withoutExit)
    functions := p.functions.withoutExit }

namespace Label

variable {l : Label}

theorem isNamed_withoutExit (l : Label) : l.withoutExit.isNamed = l.isNamed := by
  cases l <;> rfl

theorem withoutExit_of_ne (h : l ≠ .exit) : l.withoutExit = l := by
  cases l with
  | exit => exact absurd rfl h
  | _ => rfl

theorem withoutExit_of_isNamed (h : l.isNamed = true) : l.withoutExit = l := by
  cases l with
  | named name => rfl
  | _ => cases h

theorem withoutExit_ne (l : Label) : l.withoutExit ≠ .exit := by
  cases l <;> exact Label.noConfusion

end Label

theorem attached_withoutExit (code : List Instruction) :
    attached (code.map (·.withoutExit)) = attached code := by
  have hnamed : (fun l : Label => l.isNamed) ∘ (·.label) ∘ Instruction.withoutExit =
      (fun l : Label => l.isNamed) ∘ (·.label) :=
    funext fun i => i.label.isNamed_withoutExit
  rw [attached, attached, List.map_map, List.filter_map, List.filter_map, hnamed]
  refine List.map_congr_left fun i hi => ?_
  exact Label.withoutExit_of_isNamed (List.mem_filter.mp hi).2

namespace Registry

variable (r : Registry)

theorem get?_withoutExit (name : String) :
    r.withoutExit.get? name = (r.get? name).map (·.withoutExit) :=
  Std.TreeMap.getElem?_map

theorem contains_withoutExit (name : String) : r.withoutExit.contains name = r.contains name := by
  rw [contains, get?_withoutExit, Option.isSome_map, contains]

theorem lookup_withoutExit (name : String) (site : Site) :
    r.withoutExit.lookup name site = (r.lookup name site).map (·.withoutExit) := by
  rw [lookup, lookup, get?_withoutExit]
  cases r.get? name <;> rfl

theorem size_withoutExit : r.withoutExit.size = r.size :=
  Std.TreeMap.size_map

theorem names_withoutExit : r.withoutExit.names = r.names :=
  Std.TreeMap.keys_map

end Registry

theorem calleesOf_withoutExit (code : List Instruction) :
    calleesOf (code.map (·.withoutExit)) = calleesOf code := by
  rw [calleesOf, List.filterMap_map]
  rfl

/-! ## The machine -/

theorem LabelTable.ofCode_withoutExit (code : List Instruction) (scope : Scope) :
    ofCode (code.map (·.withoutExit)) scope = ofCode code scope := by
  have hadd (t : LabelTable) (x : Instruction × Nat) :
      add scope t (Prod.map (·.withoutExit) id x) = add scope t x := by
    obtain ⟨i, position⟩ := x
    simp only [add, Prod.map, Instruction.withoutExit, Label.isNamed_withoutExit, id]
    split
    · next hn => rw [Label.withoutExit_of_isNamed hn]
    · rfl
  rw [ofCode, List.zipIdx_map, List.foldlM_map]
  simp only [hadd]
  rfl

namespace Registry

variable {r : Registry}

/-- An analysis that does not look at labels finds the same in every body. -/
theorem analyse_withoutExit {α : Type} {analysis : BodyAnalysis α}
    (h : ∀ (callee : Site → String → MemoM α α) f,
      analysis callee f.withoutExit = analysis callee f) (chain : List String) (site : Site)
    (name : String) :
    r.withoutExit.analyse analysis chain site name = r.analyse analysis chain site name := by
  induction hm : r.outside chain using Nat.strongRecOn generalizing chain site name with
  | ind m ih =>
    rw [analyse, analyse]
    refine bind_congr fun memo => ?_
    cases memo[name]? with
    | some a => rfl
    | none =>
      dsimp only
      split
      · rfl
      next hc =>
      split
      · next hf =>
        split
        · rfl
        · next hf' => rw [get?_withoutExit, hf'] at hf; cases hf
      · next g hg =>
        split
        · next hf' => rw [get?_withoutExit, hf'] at hg; cases hg
        · next f hf =>
          rw [get?_withoutExit, hf] at hg; cases hg
          have hlt := outside_append_lt (mem_names_of_get? hf) hc
          have e : r.withoutExit.analyse analysis (chain ++ [name]) =
              r.analyse analysis (chain ++ [name]) :=
            funext₂ fun site name => ih _ (hm ▸ hlt) _ site name rfl
          rw [e, h]

theorem instructionCost_withoutExit (site : Site) (i : Instruction) :
    r.withoutExit.instructionCost site i.withoutExit = r.instructionCost site i := by
  have hbody (callee : Site → String → MemoM Cycles Cycles) (f : Function) :
      Cost.ofBody callee f.withoutExit = Cost.ofBody callee f := by
    rw [Cost.ofBody, Function.withoutExit, List.zipIdx_map, List.foldlM_map]
    rfl
  have e : r.withoutExit.bodyCost = r.bodyCost :=
    funext₂ fun site name => analyse_withoutExit hbody [] site name
  rw [instructionCost, e]
  rfl

end Registry

namespace Argument

variable {r : Registry} {invoke invoke' : Invoke}

theorem value_withoutExit (h : ∀ f vs, invoke' f.withoutExit vs = invoke f vs) (site : Site)
    (frame : Frame) (a : Argument) :
    a.value r.withoutExit invoke' site frame = a.value r invoke site frame := by
  induction a with
  | leaf v => rfl
  | call name arguments ih =>
    rw [value, value, listValues_congr ih, r.lookup_withoutExit]
    refine bind_congr fun vs => ?_
    cases r.lookup name site with
    | error e => rfl
    | ok f => exact h f vs

end Argument

namespace Routine

variable {r : Registry} {invoke invoke' : Invoke}

def withoutExit (p : Routine) : Routine := { p with code := p.code.map (·.withoutExit) }

theorem ofCode_withoutExit (code : List Instruction) (scope : Scope) :
    ofCode (code.map (·.withoutExit)) scope = (ofCode code scope).map (·.withoutExit) := by
  have hfixed : firstFixedTarget? (code.map (·.withoutExit)) scope =
      firstFixedTarget? code scope := by
    rw [firstFixedTarget?, List.zipIdx_map, List.findSome?_map]
    rfl
  rw [ofCode, ofCode, LabelTable.ofCode_withoutExit, hfixed]
  cases LabelTable.ofCode code scope with
  | error e => rfl
  | ok t =>
    cases firstFixedTarget? code scope with
    | some e => rfl
    | none => simp [withoutExit, bind, Except.bind, pure, Except.pure, Except.map]

theorem start_withoutExit (p : Routine) (inputs : List Value) :
    p.withoutExit.start inputs = p.start inputs := by
  have hempty : p.withoutExit.code.isEmpty = p.code.isEmpty := by
    rw [Array.isEmpty, Array.isEmpty, withoutExit, Array.size_map]
  have hvars : p.withoutExit.code.toList.flatMap (·.vars) = p.code.toList.flatMap (·.vars) := by
    rw [withoutExit, Array.toList_map, List.flatMap_map]
    rfl
  rw [start, start, hempty, hvars]

theorem follow_withoutExit (p : Routine) : p.withoutExit.follow = p.follow := by
  funext s signal
  cases signal <;> simp [follow, moveTo, withoutExit]

theorem stepWith_withoutExit (p : Routine) (h : ∀ f vs, invoke' f.withoutExit vs = invoke f vs)
    (s : State) : p.withoutExit.stepWith r.withoutExit invoke' s = p.stepWith r invoke s := by
  have hget : p.withoutExit.code[s.pointer]? = p.code[s.pointer]?.map (·.withoutExit) :=
    Array.getElem?_map
  have hcall (site : Site) : Call.value r.withoutExit invoke' site s.frame =
      Call.value r invoke site s.frame :=
    funext fun c => Argument.value_withoutExit h site s.frame c.toArgument
  rw [stepWith, stepWith, hget]
  cases p.code[s.pointer]? with
  | none => rfl
  | some i =>
    simp only [Option.map_some, perform, follow_withoutExit, hcall,
      Registry.instructionCost_withoutExit]
    rfl

theorem finishWith_withoutExit (p : Routine) (h : ∀ f vs, invoke' f.withoutExit vs = invoke f vs)
    (bound : Nat) (s : State) :
    p.withoutExit.finishWith r.withoutExit invoke' bound s = p.finishWith r invoke bound s := by
  induction bound generalizing s with
  | zero => rfl
  | succ bound ih =>
    rw [finishWith, finishWith, p.stepWith_withoutExit h]
    cases p.stepWith r invoke s with
    | took report next => exact ih next
    | _ => rfl

end Routine

theorem Registry.invokeTo_withoutExit (r : Registry) (bound depth : Nat) (f : Function)
    (vs : List Value) :
    r.withoutExit.invokeTo bound depth f.withoutExit vs = r.invokeTo bound depth f vs := by
  induction depth generalizing f vs with
  | zero => rfl
  | succ depth ih =>
    have hof : Routine.ofFunction f.withoutExit = (Routine.ofFunction f).map (·.withoutExit) :=
      Routine.ofCode_withoutExit f.body f.scope
    rw [invokeTo, invokeTo, hof]
    cases Routine.ofFunction f with
    | error e => simp only [Except.map, Bounded.ofExcept, Bounded.failed_bind]
    | ok p =>
      simp only [Except.map, Bounded.ofExcept, Bounded.done_bind, p.start_withoutExit,
        p.finishWith_withoutExit ih]

/-- A sequence runs as it runs without labels at the exit. -/
theorem Routine.run_withoutExit (p : Routine) (r : Registry) (bound : Nat) (inputs : List Value) :
    p.withoutExit.run r.withoutExit bound inputs = p.run r bound inputs := by
  have hinvoke (f : Function) (vs : List Value) :
      r.withoutExit.invoke bound f.withoutExit vs = r.invoke bound f vs := by
    rw [Registry.invoke, r.size_withoutExit]
    exact r.invokeTo_withoutExit bound r.size f vs
  rw [run, finish, p.start_withoutExit, p.finishWith_withoutExit hinvoke, run, finish]

/-! ## Blocks -/

/-- What a pass does with the instruction does not depend on labels at the exit: it is no `zero`
with such a label, and if it is a quote, the body has none. -/
structure Instruction.Inert (r : Registry) (i : Instruction) : Prop where
  zero : i.operation = .zero → i.label ≠ .exit
  quote : i.operation = .quote → ∀ c ∈ i.call?, ∀ f ∈ r.get? c.name, ∀ j ∈ f.body, j.label ≠ .exit

instance (r : Registry) (i : Instruction) : Decidable (i.Inert r) :=
  decidable_of_iff ((i.operation = .zero → i.label ≠ .exit) ∧ (i.operation = .quote →
      ∀ c ∈ i.call?, ∀ f ∈ r.get? c.name, ∀ j ∈ f.body, j.label ≠ .exit))
    ⟨fun h => ⟨h.1, h.2⟩, fun h => ⟨h.zero, h.quote⟩⟩

theorem map_withoutExit_of_ne {code : List Instruction} (h : ∀ i ∈ code, i.label ≠ .exit) :
    code.map (·.withoutExit) = code := by
  refine (List.map_congr_left fun i hi => ?_).trans (List.map_id code)
  rw [Instruction.withoutExit, Label.withoutExit_of_ne (h i hi)]
  rfl

namespace Splice

theorem draw_bind {α : Type} {c : Call} {body : List Instruction} {f g : Splice → FreshM α}
    (h : ∀ s : Splice, s.finish.isNamed = true → (∀ x ∈ s.labels, x.2.isNamed = true) → f s = g s) :
    draw c body >>= f = draw c body >>= g := by
  refine FreshM.bind_congr_of (P := fun s => ∀ l ∈ s.finish :: s.labels.map (·.2),
    l.isNamed = true) (fun _ s _ hr l hl => ((draw_ok hr).2.labels l hl).isNamed) fun s hs => ?_
  exact h s (hs _ (.head _)) fun x hx => hs _ (.tail _ (List.mem_map.mpr ⟨x, hx, rfl⟩))

theorem renameLabel_ne_exit {s : Splice} (hn : ∀ x ∈ s.labels, x.2.isNamed = true) {l : Label}
    (hl : l ≠ .exit) : s.renameLabel l ≠ .exit := by
  cases l with
  | empty => exact Label.noConfusion
  | exit => exact absurd rfl hl
  | named name =>
    rw [renameLabel]
    cases hm : s.labels.lookup (.named name) with
    | none => exact Label.noConfusion
    | some m =>
      rintro rfl
      cases hn _ (mem_of_lookup hm)

/-- In a splice only the first label can be one at the exit. -/
theorem block_withoutExit {s : Splice} (hf : s.finish.isNamed = true)
    (hn : ∀ x ∈ s.labels, x.2.isNamed = true) (l : Label) (v : Variable) (c : Call)
    {body : List Instruction} (hb : ∀ i ∈ body, i.label ≠ .exit) :
    (s.block l v c body).map (·.withoutExit) = s.block l.withoutExit v c body := by
  have hrelabel (xs : List Instruction) : (relabelFirst l xs).map (·.withoutExit) =
      relabelFirst l.withoutExit (xs.map (·.withoutExit)) := by
    cases xs <;> rfl
  rw [block, ← prelude, hrelabel, map_withoutExit_of_ne, block, ← prelude]
  intro i hi
  simp only [List.mem_append, List.mem_map, List.mem_singleton] at hi
  rcases hi with (hi | ⟨j, hj, rfl⟩) | rfl
  · rw [(mem_prelude hi).1]
    exact Label.noConfusion
  · exact renameLabel_ne_exit hn (hb j hj)
  · intro e
    dsimp only at e
    rw [e] at hf; cases hf

end Splice

namespace Registry

variable {r : Registry}

/-- The block of an inert instruction without its label at the exit. -/
theorem expand_withoutExit {i : Instruction} (h : i.Inert r) (site : Site) :
    r.withoutExit.expand site i.withoutExit =
      Option.map (List.map (·.withoutExit)) <$> r.expand site i := by
  obtain ⟨l, command⟩ := i
  cases command with
  | increase v => rfl
  | decrease v => rfl
  | neutral v => rfl
  | jumpNotZero v target => rfl
  | zero v =>
    -- the only block whose jump goes to the label of the instruction
    cases l with
    | empty =>
      change freshLabel >>= _ = _ <$> (freshLabel >>= _)
      rw [map_bind]
      exact freshLabel_bind fun loop => rfl
    | exit => exact absurd rfl (h.zero rfl)
    | named name => rfl
  | goto target =>
    simp only [expand, map_bind]
    rfl
  | assignConstant v k =>
    simp [expand, Block.assignConstant, Instruction.withoutExit, Label.withoutExit]
  | assign v w =>
    simp only [expand, Instruction.withoutExit]
    split
    · rfl
    · simp only [map_bind]
      refine freshLabel_bind fun drain => freshLabel_bind fun restore => freshLabel_bind fun done =>
        ?_
      rfl
  | jumpZero v target =>
    simp only [expand, map_bind]
    exact freshLabel_bind fun skip => rfl
  | jumpEqualConstant v k target =>
    simp only [expand, map_bind]
    refine freshLabel_bind fun skip => bind_congr fun z => ?_
    simp [Block.jumpEqualConstant, Instruction.withoutExit, Label.withoutExit]
  | jumpEqualVariable v w target =>
    simp only [expand, Instruction.withoutExit]
    split
    · rfl
    · simp only [map_bind]
      refine freshLabel_bind fun differ => freshLabel_bind fun loop => freshLabel_bind fun finish =>
        ?_
      rfl
  | quote v c =>
    simp only [expand, Instruction.withoutExit, lookup, get?_withoutExit]
    cases hf : r.get? c.name with
    | none => rfl
    | some f =>
      have hb : ∀ j ∈ f.body, j.label ≠ .exit := h.quote rfl c rfl f hf
      have hbody : f.withoutExit.body = f.body := map_withoutExit_of_ne hb
      simp only [Option.map_some, hbody, map_bind, map_pure]
      refine Splice.draw_bind fun s hfinish hlabels => ?_
      exact congrArg (pure ∘ some) (Splice.block_withoutExit hfinish hlabels l v c hb).symm
  | jumpEqualCall v c target =>
    simp only [expand, map_bind]
    rfl

end Registry

/-! ## Passes -/

def Node.withoutExit (node : Node) : Node :=
  { node with instruction := node.instruction.withoutExit }

def Line.withoutExit (line : Line) : Line := { line with node := line.node.withoutExit }

namespace Snapshot

def withoutExit (s : Snapshot) : Snapshot :=
  { s with nodes := s.nodes.map (·.withoutExit), lines := s.lines.map (·.withoutExit) }

theorem ofCode_withoutExit (code : List Instruction) :
    ofCode (code.map (·.withoutExit)) = (ofCode code).withoutExit := by
  simp [ofCode, withoutExit, List.zipIdx_map, Function.comp_def, Node.withoutExit, Line.withoutExit]

theorem instructions_withoutExit (s : Snapshot) :
    s.withoutExit.instructions = s.instructions.map (·.withoutExit) := by
  simp [instructions, withoutExit, Line.withoutExit, Node.withoutExit]

theorem isBasic_withoutExit (s : Snapshot) : s.withoutExit.isBasic = s.isBasic := by
  rw [isBasic, instructions_withoutExit, List.all_map]
  rfl

theorem grow_withoutExit (parent : Line) (s : Snapshot) (i : Instruction) :
    grow parent.withoutExit s.withoutExit i.withoutExit = (grow parent s i).withoutExit := by
  simp [grow, withoutExit, Line.withoutExit, Node.withoutExit]

theorem advance_withoutExit (s : Snapshot) (line : Line) (b : Option (List Instruction)) :
    s.withoutExit.advance line.withoutExit (b.map (List.map (·.withoutExit))) =
      (s.advance line b).withoutExit := by
  cases b with
  | none => simp [advance, withoutExit]
  | some block =>
    rw [Option.map_some, advance, advance]
    induction block generalizing s with
    | nil => rfl
    | cons i rest ih => rw [List.map_cons, List.foldl_cons, List.foldl_cons, grow_withoutExit, ih]

variable {r : Registry} {scope : Scope}

theorem foldlM_passStep_withoutExit {xs : List (Line × Nat)}
    (h : ∀ x ∈ xs, x.1.node.instruction.Inert r) (t : Snapshot) :
    (xs.map (Prod.map (·.withoutExit) id)).foldlM (passStep r.withoutExit scope) t.withoutExit =
      withoutExit <$> xs.foldlM (passStep r scope) t := by
  induction xs generalizing t with
  | nil => rfl
  | cons x xs ih =>
    have hx : passStep r.withoutExit scope t.withoutExit (Prod.map (·.withoutExit) id x) =
        withoutExit <$> passStep r scope t x := by
      change (r.withoutExit.expand _ x.1.node.instruction.withoutExit >>= _) = _
      rw [Registry.expand_withoutExit (h x (by simp)), bind_map_left, map_bind]
      exact bind_congr fun b => congrArg pure (advance_withoutExit t x.1 b)
    rw [List.map_cons, List.foldlM_cons, List.foldlM_cons, map_bind, hx, bind_map_left]
    exact bind_congr fun t1 => ih (fun y hy => h y (by simp [hy])) t1

theorem pass_withoutExit {s : Snapshot} (h : ∀ i ∈ s.instructions, i.Inert r) :
    s.withoutExit.pass (fun i position => r.withoutExit.expand ⟨scope, position⟩ i) =
      withoutExit <$> s.pass fun i position => r.expand ⟨scope, position⟩ i := by
  have hlines : s.withoutExit.lines.toList.zipIdx 1 =
      (s.lines.toList.zipIdx 1).map (Prod.map (·.withoutExit) id) := by
    rw [withoutExit, Array.toList_map, List.zipIdx_map]
  have hinert : ∀ x ∈ s.lines.toList.zipIdx 1, x.1.node.instruction.Inert r := by
    intro x hx
    refine h _ ?_
    rw [← map_zipIdx_instructions]
    exact List.mem_map.mpr ⟨x, hx, rfl⟩
  have hpass (r : Registry) (s : Snapshot) :
      (s.pass fun i position => r.expand ⟨scope, position⟩ i) =
        (s.lines.toList.zipIdx 1).foldlM (passStep r scope)
          { s with lines := #[], degree := s.degree + 1 } := rfl
  rw [hpass, hpass, hlines, ← foldlM_passStep_withoutExit hinert]
  simp only [withoutExit, List.map_toArray, List.map_nil]

end Snapshot

theorem Names.above_withoutExit (code : List Instruction) :
    above (code.map (·.withoutExit)) = above code := by
  have hpast (n : SLanguage.Names) (i : Instruction) : n.past i.withoutExit = n.past i := by
    obtain ⟨l, command⟩ := i
    cases l <;> rfl
  rw [above, List.foldl_map]
  simp only [hpast]
  rfl

namespace Registry

variable {r : Registry} {scope : Scope} {degree : Nat}

theorem passes_withoutExit {s : Snapshot} {n : SLanguage.Names}
    (h : ∀ e < degree, ∀ s' n', (r.passes scope e s).run n = .ok s' n' →
      ∀ i ∈ s'.instructions, i.Inert r) :
    (r.withoutExit.passes scope degree s.withoutExit).run n =
      (Snapshot.withoutExit <$> r.passes scope degree s).run n := by
  induction degree generalizing s n with
  | zero => rfl
  | succ degree ih =>
    rw [passes, passes, s.isBasic_withoutExit]
    split
    · rfl
    next hb =>
    have hinert := h 0 (Nat.succ_pos _) s n rfl
    rw [Snapshot.pass_withoutExit hinert, bind_map_left, map_bind]
    change EStateM.bind _ _ n = EStateM.bind _ _ n
    unfold EStateM.bind
    cases hr : s.pass (fun i position => r.expand ⟨scope, position⟩ i) n with
    | error e n' => rfl
    | ok s1 n1 =>
      refine ih fun e he s' n' hs' => h (e + 1) (Nat.succ_lt_succ he) s' n' ?_
      rw [passes, if_neg hb]
      change EStateM.bind _ _ n = _
      unfold EStateM.bind
      rw [hr]
      exact hs'

theorem expandTo_withoutExit {code : List Instruction}
    (h : ∀ e < degree, ∀ s, r.expandTo scope code e = .ok s → ∀ i ∈ s.instructions, i.Inert r) :
    r.withoutExit.expandTo scope (code.map (·.withoutExit)) degree =
      (r.expandTo scope code degree).map (·.withoutExit) := by
  have hpasses := passes_withoutExit (s := .ofCode code) (n := .above code) fun e he s n hs =>
    h e he s (by rw [expandTo, hs])
  rw [expandTo, expandTo, Names.above_withoutExit, Snapshot.ofCode_withoutExit, hpasses]
  cases hr : (r.passes scope degree (.ofCode code)).run (.above code) with
  | ok s n => rw [FreshM.map_ok hr]; rfl
  | error e n => rw [FreshM.map_error hr]; rfl

end Registry

/-! ## The check -/

namespace Registry

variable {r : Registry}

theorem search_withoutExit (path finished : List String) (name : String) :
    r.withoutExit.search path finished name = r.search path finished name := by
  induction hm : r.outside path using Nat.strongRecOn generalizing path finished name with
  | ind m ih =>
    rw [search, search]
    split
    · rfl
    next hp =>
    split
    · rfl
    split
    · next hf =>
      split
      · rfl
      · next hf' => rw [get?_withoutExit, hf'] at hf; cases hf
    · next g hg =>
      split
      · next hf' => rw [get?_withoutExit, hf'] at hg; cases hg
      · next f hf =>
        rw [get?_withoutExit, hf] at hg; cases hg
        have hlt := outside_append_lt (mem_names_of_get? hf) hp
        have e : r.withoutExit.search (path ++ [name]) = r.search (path ++ [name]) :=
          funext₂ fun finished name => ih _ (hm ▸ hlt) _ finished name rfl
        have hc : f.withoutExit.callees = f.callees := calleesOf_withoutExit f.body
        rw [e, hc]

theorem findRecursion_withoutExit : r.withoutExit.findRecursion = r.findRecursion := by
  have e : r.withoutExit.search [] = r.search [] :=
    funext₂ fun finished name => search_withoutExit [] finished name
  rw [findRecursion, names_withoutExit, e]
  rfl

end Registry

theorem WellFormed.withoutExit {r : Registry} {code : List Instruction} (h : WellFormed r code) :
    WellFormed r.withoutExit (code.map (·.withoutExit)) := by
  refine ⟨?_, fun j hj t ht => ?_, fun j hj => ?_⟩
  · rw [attached_withoutExit]
    exact h.unique
  · obtain ⟨i, hi, rfl⟩ := List.mem_map.mp hj
    rw [attached_withoutExit]
    exact h.targets i hi t ht
  · obtain ⟨i, hi, rfl⟩ := List.mem_map.mp hj
    have hfits := h.fits i hi
    refine ⟨hfits.writable, hfits.proper, fun n hn => ?_⟩
    rw [Registry.contains_withoutExit]
    exact hfits.known n hn

/-! ## Programs -/

namespace Program

variable {p : Program}

theorem mem_functions_withoutExit {f : Function} (h : f ∈ p.withoutExit.functions.functions) :
    ∃ g ∈ p.functions.functions, f = g.withoutExit := by
  rw [Registry.mem_functions_iff] at h
  obtain ⟨g, hg, rfl⟩ := Option.map_eq_some_iff.mp ((p.functions.get?_withoutExit _).symm.trans h)
  exact ⟨g, Registry.mem_functions_iff.mpr hg, rfl⟩

theorem WellFormed.withoutExit (h : p.WellFormed) : p.withoutExit.WellFormed := by
  refine ⟨h.main.withoutExit, fun f hf => ?_, ?_⟩
  · obtain ⟨g, hg, rfl⟩ := mem_functions_withoutExit hf
    exact (h.bodies g hg).withoutExit
  · exact Registry.findRecursion_withoutExit.trans h.acyclic

theorem exitFree_withoutExit (p : Program) : p.withoutExit.ExitFree := by
  have hcode (code : List Instruction) : ∀ i ∈ code.map (·.withoutExit), i.label ≠ .exit := by
    intro i hi
    obtain ⟨j, -, rfl⟩ := List.mem_map.mp hi
    exact j.label.withoutExit_ne
  refine ⟨hcode _, fun f hf => ?_⟩
  obtain ⟨g, -, rfl⟩ := mem_functions_withoutExit hf
  exact hcode _

/-- The passes up to the degree meet only inert instructions. -/
def InertBelow (p : Program) (degree : Nat) : Prop :=
  ∀ e < degree, ∀ s, p.expandTo e = .ok s → ∀ i ∈ s.instructions, i.Inert p.functions

instance (p : Program) (degree : Nat) : Decidable (p.InertBelow degree) :=
  decidable_of_iff (∀ e < degree, ∀ s ∈ (p.expandTo e).toOption,
    ∀ i ∈ s.instructions, i.Inert p.functions) (by
      refine forall₂_congr fun e _ => forall_congr' fun s => imp_congr_left ?_
      cases p.expandTo e <;> simp [Except.toOption])

theorem prepare_withoutExit {q : Request} (h : p.InertBelow q.degree) :
    p.withoutExit.prepare q = (p.prepare q).map (·.withoutExit) := by
  have hs : p.withoutExit.expandTo q.degree = (p.expandTo q.degree).map (·.withoutExit) :=
    Registry.expandTo_withoutExit h
  have htier (code : List Instruction) :
      q.tier.firstUnsupported (code.map (·.withoutExit)) = q.tier.firstUnsupported code := by
    rw [Tier.firstUnsupported, List.zipIdx_map, List.findSome?_map]
    rfl
  rw [prepare, prepare, hs]
  cases p.expandTo q.degree with
  | error e => rfl
  | ok s =>
    simp only [Except.map, bind, Except.bind, s.instructions_withoutExit, htier,
      Routine.ofCode_withoutExit]
    split <;> rfl

/-- Where the passes meet only inert instructions, labels at the exit change nothing. -/
theorem run_withoutExit {q : Request} (h : p.InertBelow q.degree) (bound : Nat) :
    p.withoutExit.run bound q = p.run bound q := by
  rw [run, run, prepare_withoutExit h]
  cases p.prepare q with
  | error e => simp only [Except.map, Bounded.ofExcept, Bounded.failed_bind]
  | ok routine => exact routine.run_withoutExit p.functions bound q.inputs

/-- A valid program and the one without its labels at the exit run alike, at every degree below
which only inert instructions are met: neither fails, and both run forever or both end with one
outcome. -/
theorem exit_labels_inert (p : Program) (hv : p.isValid = true) (degree : Nat)
    (h : p.InertBelow degree) (s : Snapshot) (hs : p.expandTo degree = .ok s)
    (inputs : List Value) :
    (∀ bound e, p.run bound { inputs, degree } ≠ .failed e ∧
      p.withoutExit.run bound { inputs, degree } ≠ .failed e) ∧
    (p.Diverges { inputs, degree } ∧ p.withoutExit.Diverges { inputs, degree } ∨
      ∃ o, p.Halts { inputs, degree } o ∧ p.withoutExit.Halts { inputs, degree } o) := by
  have hw := (isValid_iff.mp hv).withoutExit
  have hx := p.exitFree_withoutExit
  have hs' : p.withoutExit.expandTo degree = .ok s.withoutExit :=
    (Registry.expandTo_withoutExit h).trans (congrArg (Except.map _) hs)
  have hrun (bound : Nat) : p.withoutExit.run bound { inputs, degree } =
      p.run bound { inputs, degree } := run_withoutExit h bound
  obtain ⟨-, -, hf⟩ := exists_routine (hw.isValid_expandTo hx hs')
    (p.withoutExit.prepare_four (q := { inputs, degree }) rfl hs')
  refine ⟨fun bound e => ⟨hrun bound ▸ hf bound e, hf bound e⟩, ?_⟩
  by_cases hdone : ∃ bound o, p.run bound { inputs, degree } = .done o
  · obtain ⟨bound, o, ho⟩ := hdone
    exact .inr ⟨o, halts_of_run ho, halts_of_run ((hrun bound).trans ho)⟩
  · have hnone : p.Diverges { inputs, degree } := by
      intro bound
      cases hr : p.run bound { inputs, degree } with
      | unfinished => rfl
      | failed e => exact absurd ((hrun bound).trans hr) (hf bound e)
      | done o => exact absurd ⟨bound, o, hr⟩ hdone
    exact .inl ⟨hnone, fun bound => (hrun bound).trans (hnone bound)⟩

/-- A jump and a quote, both with labels at the exit. -/
def exitLabelled : Program where
  name := "exit-labelled"
  instructions :=
    [⟨.exit, .jumpNotZero (.input 1) .exit⟩,
     ⟨.exit, .quote .result ⟨"NOT", [.leaf (.input 1)]⟩⟩]
  functions := .ofList [Demo.negation]

theorem exitLabelled_inert : exitLabelled.isValid = true ∧ exitLabelled.InertBelow 2 ∧
    (∃ s, exitLabelled.expandTo 2 = .ok s) ∧
    ∃ o, exitLabelled.Halts { inputs := [0], degree := 2 } o ∧
      exitLabelled.withoutExit.Halts { inputs := [0], degree := 2 } o ∧ o.result = 1 := by
  have hv : exitLabelled.isValid = true := by decide +kernel
  have hi : exitLabelled.InertBelow 2 := by decide +kernel
  have hok : (exitLabelled.expandTo 2).isOk = true := by decide +kernel
  have hrun : (exitLabelled.run 30 { inputs := [0], degree := 2 }).bind
      (fun o => .done o.result) = .done 1 := by decide +kernel
  cases hs : exitLabelled.expandTo 2 with
  | error e => rw [hs] at hok; cases hok
  | ok s =>
    obtain ⟨-, ⟨hd, -⟩ | ⟨o, ho, ho'⟩⟩ := exit_labels_inert exitLabelled hv 2 hi s hs [0]
    · rw [hd 30] at hrun; cases hrun
    · exact ⟨hv, hi, ⟨s, rfl⟩, o, ho, ho', ho.result_eq hrun⟩

/-- A count down that starts at the exit. -/
def exitZero : Program where
  name := "exit-zero"
  instructions := [⟨.exit, .zero (.input 1)⟩, ⟨.empty, .increase .result⟩]

/-- On its way down the count leaves the program: at degree 1 the label decides the result. -/
theorem exit_label_leaves_count : exitZero.isValid = true ∧
    (exitZero.run 4 { inputs := [2], degree := 1 }).bind (fun o => .done o.result) = .done 0 ∧
    (exitZero.withoutExit.run 6 { inputs := [2], degree := 1 }).bind (fun o => .done o.result) =
      .done 1 := by
  decide +kernel

end Program

end SLanguage
