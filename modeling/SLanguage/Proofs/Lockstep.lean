import SLanguage.Proofs.Effects

/-!
# Routines in lockstep

Two routines match (`Routine.Matched`) if place by place their instructions cost the same and keep a
relation of frames, and labels stand at the same places under new names. Then a step of the one is a
step of the other (`stepWith_lockstep`) and, if labels keep their names, a run of the one is a run
of the other (`finishWith_lockstep`). The relation of frames in use is that the second one holds,
under new names, what the first one holds in the variables in play (`Frame.Carried`): commands that
name no other variable keep it (`Command.execute_carried`).
-/

namespace SLanguage

/-! ## Bounded computations side by side -/

/-- Both give related values, both fail in the same way, or neither says anything. -/
inductive Bounded.Rel {α β : Type} (R : α → β → Prop) : Bounded α → Bounded β → Prop where
  | done {a : α} {b : β} (h : R a b) : Rel R (.done a) (.done b)
  | failed (e : Fault) : Rel R (.failed e) (.failed e)
  | unfinished : Rel R .unfinished .unfinished

theorem Bounded.Rel.bind {α β γ δ : Type} {R : α → β → Prop} {Q : γ → δ → Prop} {x : Bounded α}
    {y : Bounded β} {f : α → Bounded γ} {g : β → Bounded δ} (h : x.Rel R y)
    (hf : ∀ a b, R a b → (f a).Rel Q (g b)) : (x >>= f).Rel Q (y >>= g) := by
  cases h with
  | done h => exact hf _ _ h
  | failed e => exact .failed e
  | unfinished => exact .unfinished

theorem Bounded.Rel.imp {α β : Type} {R Q : α → β → Prop} {x : Bounded α} {y : Bounded β}
    (h : x.Rel R y) (hRQ : ∀ a b, R a b → Q a b) : x.Rel Q y := by
  cases h with
  | done h => exact .done (hRQ _ _ h)
  | failed e => exact .failed e
  | unfinished => exact .unfinished

/-! ## Frames -/

/-- On the variables of `S`, the second frame holds under the new names what the first one holds. -/
def Frame.Carried (ρ : Variable → Variable) (S : Variable → Prop) (f h : Frame) : Prop :=
  ∀ v, S v → h.get (ρ v) = f.get v

section
variable {ρ : Variable → Variable} {g : Label → Label} {S : Variable → Prop} {f h : Frame}

theorem Argument.value_rename {a : Argument} (hl : ∀ v ∈ a.vars, h.get (ρ v) = f.get v)
    (r : Registry) (invoke : Invoke) (site : Site) :
    (a.rename ρ).value r invoke site h = a.value r invoke site f := by
  have list : ∀ as : List Argument,
      (∀ a ∈ as, (a.rename ρ).value r invoke site h = a.value r invoke site f) →
      listValues r invoke site h (renameList ρ as) = listValues r invoke site f as := by
    intro as ha
    induction as with
    | nil => rfl
    | cons a rest ih =>
      rw [renameList, listValues, listValues, ha a (.head _), ih fun b hb => ha b (.tail _ hb)]
  induction a with
  | leaf v => rw [rename, value, value, hl v (by simp [vars])]
  | call name arguments ih =>
    rw [rename, value, value, list arguments fun a ha => ih a ha fun v hv => hl v ?_]
    rw [vars, listVars_eq]
    exact List.mem_flatMap.mpr ⟨a, ha, hv⟩

/-- The effects of two commands are the same, but for related frames and for the names of labels. -/
def Command.SameEffect (R : Frame → Frame → Prop) (g : Label → Label) (x y : Frame × Signal) :
    Prop :=
  R x.1 y.1 ∧ y.2 = x.2.rename g

/-- A renaming that keeps the variables in play apart, and constants constant, carries the effect of
a command over, whatever its call gives. -/
theorem Command.execute_carried {c : Command} (hS : ∀ v ∈ c.vars, S v)
    (hinj : ∀ u v, S u → S v → ρ u = ρ v → u = v)
    (hc : ∀ v ∈ c.operands, (ρ v).isConstant = v.isConstant) (hl : f.Carried ρ S h)
    (r : Registry) (invoke : Invoke) (site : Site) :
    (c.execute (Call.value r invoke site f) f).Rel (Command.SameEffect (Frame.Carried ρ S) g)
      ((c.rename ρ g).execute (Call.value r invoke site h) h) := by
  have hcall : ∀ call, c.call? = some call →
      Call.value r invoke site h (call.rename ρ) = Call.value r invoke site f call :=
    fun call hcall => Argument.value_rename (a := call.toArgument)
      (fun v hv => hl v (hS v (vars_of_call? hcall hv))) r invoke site
  -- a command whose call has a value does what it does with that value for every call
  have done (w : Value) (hw : ∀ call, c.call? = some call →
      Call.value r invoke site f call = .done w) :
      (c.execute (Call.value r invoke site f) f).Rel (Command.SameEffect (Frame.Carried ρ S) g)
        ((c.rename ρ g).execute (Call.value r invoke site h) h) := by
    have hw' : ∀ call, (c.rename ρ g).call? = some call →
        Call.value r invoke site h call = .done w := by
      intro call' hcall'
      rw [call?_rename] at hcall'
      obtain ⟨call, hc', rfl⟩ := Option.map_eq_some_iff.mp hcall'
      rw [hcall call hc', hw call hc']
    rw [execute_congr hw, execute_congr hw']
    obtain ⟨f', signal, hx⟩ := c.execute_total w f
    obtain ⟨h', hx', hl', -⟩ := execute_rename (g := g) hS hinj hc hl hx
    rw [hx, hx']
    exact .done ⟨hl', rfl⟩
  cases hc' : c.call? with
  | none => exact done 0 fun call hcall => by rw [hc'] at hcall; cases hcall
  | some call =>
    have hvalue := hcall call hc'
    clear hcall
    cases hv : Call.value r invoke site f call with
    | done w =>
      refine done w fun call' h' => ?_
      rw [hc'] at h'
      cases h'
      exact hv
    | failed e =>
      rw [hv] at hvalue
      cases c <;> cases hc' <;> (rw [rename, execute, execute, hv, hvalue]; exact .failed e)
    | unfinished =>
      rw [hv] at hvalue
      cases c <;> cases hc' <;> (rw [rename, execute, execute, hv, hvalue]; exact .unfinished)

end

/-! ## Steps -/

variable {R : Frame → Frame → Prop} {g : Label → Label}

/-- States whose frames are related, and that are the same otherwise. -/
structure State.Lockstep (R : Frame → Frame → Prop) (s t : State) : Prop where
  frame : R s.frame t.frame
  pointer : s.pointer = t.pointer
  cycles : s.cycles = t.cycles
  steps : s.steps = t.steps
  halted : s.halted = t.halted

/-- What the steps from `s` and `t` do is the same under the new names. A step that fails before it
is charged leaves its state and fails in the same way; one that fails after it was charged is a jump
of the sequence itself to a label that stands nowhere, and that label is renamed. -/
inductive Step.Lockstep (R : Frame → Frame → Prop) (g : Label → Label) (site : Site)
    (s t : State) : Step → Step → Prop where
  | halted : Lockstep R g site s t .halted .halted
  | took (report : Report) {s' t' : State} (h : s'.Lockstep R t') :
      Lockstep R g site s t (.took report s')
        (.took { report with signal := report.signal.rename g } t')
  | failed (e : Fault) : Lockstep R g site s t (.failed e s) (.failed e t)
  | strayed (l : Label) {s' t' : State} (h : s'.Lockstep R t') (hs : s'.steps = s.steps + 1) :
      Lockstep R g site s t (.failed (.unresolvedLabel l site) s')
        (.failed (.unresolvedLabel (g l) site) t')
  | unfinished : Lockstep R g site s t .unfinished .unfinished

/-- Routines whose instructions, place by place, cost the same and keep the relation of frames. -/
structure Routine.Matched (r : Registry) (R : Frame → Frame → Prop) (g : Label → Label)
    (p p' : Routine) : Prop where
  scope : p'.scope = p.scope
  size : p'.code.size = p.code.size
  position : ∀ l, p'.labels.position? (g l) = p.labels.position? l
  exit : ∀ l, g l = .exit ↔ l = .exit
  keeps : ∀ (k : Nat) i, p.code[k]? = some i → ∃ i', p'.code[k]? = some i' ∧
    (∀ site, r.instructionCost site i' = r.instructionCost site i) ∧
    ∀ invoke site f h, R f h →
      (i.command.execute (Call.value r invoke site f) f).Rel (Command.SameEffect R g)
        (i'.command.execute (Call.value r invoke site h) h)

namespace Routine

variable {r : Registry} {invoke : Invoke} {p p' : Routine} {s t : State}

theorem moveTo_lockstep (hp : Matched r R g p p') (h : s.Lockstep R t) (pointer : Nat) :
    (p.moveTo s pointer).Lockstep R (p'.moveTo t pointer) :=
  ⟨h.frame, rfl, h.cycles, h.steps, by rw [moveTo, moveTo, hp.size]⟩

/-- The signal and the renamed signal lead to the same place, or are jumps to labels that stand
nowhere. -/
theorem follow_lockstep (hp : Matched r R g p p') (h : s.Lockstep R t) {signal : Signal}
    (hx : signal ≠ .jump .exit) :
    (∃ l, p.follow s signal = .error (.unresolvedLabel l ⟨p.scope, s.position⟩) ∧
      p'.follow t (signal.rename g) = .error (.unresolvedLabel (g l) ⟨p.scope, s.position⟩)) ∨
    ∃ s' t', p.follow s signal = .ok s' ∧ p'.follow t (signal.rename g) = .ok t' ∧
      s'.Lockstep R t' := by
  cases signal with
  | next =>
    refine .inr ⟨_, _, rfl, rfl, ?_⟩
    rw [h.pointer]
    exact moveTo_lockstep hp h _
  | halt =>
    rw [Signal.rename, (hp.exit _).mpr rfl]
    exact .inr ⟨_, _, rfl, rfl, h.frame, h.pointer, h.cycles, h.steps, rfl⟩
  | jump l =>
    have hl : g l ≠ .exit := fun e => hx (by rw [(hp.exit l).mp e])
    rw [Signal.rename, Signal.goto_of_ne hl, follow, follow, hp.position, hp.scope, State.position,
      State.position, h.pointer]
    cases p.labels.position? l with
    | none => exact .inl ⟨l, rfl, rfl⟩
    | some pointer => exact .inr ⟨_, _, rfl, rfl, moveTo_lockstep hp h pointer⟩

theorem perform_lockstep (hp : Matched r R g p p') (h : s.Lockstep R t) {i i' : Instruction}
    (hx : (i.command.execute (Call.value r invoke ⟨p.scope, s.position⟩ s.frame) s.frame).Rel
      (Command.SameEffect R g)
      (i'.command.execute (Call.value r invoke ⟨p.scope, s.position⟩ t.frame) t.frame))
    (cost : Cycles) :
    (p.perform r invoke s i cost).Lockstep R g ⟨p.scope, s.position⟩ s t
      (p'.perform r invoke t i' cost) := by
  have hposition : t.position = s.position := congrArg (· + 1) h.pointer.symm
  rw [perform, perform, hp.scope, hposition]
  generalize hy : i.command.execute _ _ = x at hx ⊢
  generalize i'.command.execute _ _ = y at hx ⊢
  cases hx with
  | failed e => exact .failed e
  | unfinished => exact .unfinished
  | @done x y hxy =>
    obtain ⟨frame, signal⟩ := x
    obtain ⟨frame', _⟩ := y
    obtain ⟨hframe, rfl⟩ := hxy
    have hcharged : State.Lockstep R
        { s with frame, cycles := Word.add s.cycles cost, steps := s.steps + 1 }
        { t with frame := frame', cycles := Word.add t.cycles cost, steps := t.steps + 1 } :=
      ⟨hframe, h.pointer, congrArg (Word.add · cost) h.cycles, congrArg (· + 1) h.steps, h.halted⟩
    have hexit : signal ≠ .jump .exit := by
      rintro rfl
      exact (Command.execute_jump hy).2 rfl
    rcases follow_lockstep hp hcharged hexit with ⟨l, hs, ht⟩ | ⟨s', t', hs, ht, hnext⟩
    · simp only [hs, ht]
      exact .strayed l hcharged rfl
    · simp only [hs, ht, ← hnext.halted]
      exact .took ⟨s.position, signal, cost, s'.halted⟩ hnext

theorem stepWith_lockstep (hp : Matched r R g p p') (h : s.Lockstep R t) :
    (p.stepWith r invoke s).Lockstep R g ⟨p.scope, s.position⟩ s t (p'.stepWith r invoke t) := by
  have hposition : t.position = s.position := congrArg (· + 1) h.pointer.symm
  rw [stepWith, stepWith, ← h.halted, ← h.pointer, hposition, hp.scope]
  split
  · exact .halted
  cases hi : p.code[s.pointer]? with
  | none =>
    have hi' : p'.code[s.pointer]? = none := by
      rw [Array.getElem?_eq_none_iff, hp.size]
      exact Array.getElem?_eq_none_iff.mp hi
    rw [hi']
    exact .halted
  | some i =>
    obtain ⟨i', hi', hcost, hx⟩ := hp.keeps _ i hi
    simp only [hi', hcost]
    cases (r.instructionCost ⟨p.scope, s.position⟩ i).fresh with
    | error e => exact .failed e
    | ok cost => exact perform_lockstep hp h (hx invoke _ _ _ h.frame) cost

/-- Runs of routines that match and have the same labels end alike. -/
theorem finishWith_lockstep (hp : Matched r R id p p') (bound : Nat) (h : s.Lockstep R t) :
    (p.finishWith r invoke bound s).Rel (State.Lockstep R) (p'.finishWith r invoke bound t) := by
  induction bound generalizing s t with
  | zero => exact .unfinished
  | succ bound ih =>
    rw [finishWith, finishWith]
    have hstep : (p.stepWith r invoke s).Lockstep R id ⟨p.scope, s.position⟩ s t
        (p'.stepWith r invoke t) := stepWith_lockstep hp h
    generalize p.stepWith r invoke s = x at hstep ⊢
    generalize p'.stepWith r invoke t = y at hstep ⊢
    cases hstep with
    | halted => exact .done h
    | took report h => exact ih h
    | failed e => exact .failed e
    | strayed l _ _ => exact .failed _
    | unfinished => exact .unfinished

end Routine

end SLanguage
