import SLanguage.Proofs.Adequacy

/-!
# Jumps to nowhere

A function strays when some bounded run of it jumps to a label that stands nowhere, in its own body
or in one that it calls (`Registry.Strays`). `Lost r code c` says the same of a sequence, as a
relation beside `Ends`: the run from `c` comes to such a jump, or to a call that strays. A bounded
run that fails so is lost (`lost_of_finishWith`), and a run that is lost does not end
(`Lost.not_ends`).
-/

namespace SLanguage

variable {r : Registry} {code : List Instruction}

/-! ## Calls that stray -/

/-- The function jumps to nowhere, within some bound. -/
def Registry.Strays (r : Registry) (f : Function) (vs : List Value) : Prop :=
  ∃ bound depth l site, r.invokeTo bound depth f vs = .failed (.unresolvedLabel l site)

theorem Registry.Answers.not_strays {f : Function} (hf : r.get? f.name = some f) {vs : List Value}
    {w : Value} (h : r.Answers f vs w) : ¬ r.Strays f vs := by
  rintro ⟨m', d', l, site, h'⟩
  obtain ⟨m, d, h⟩ := h
  have e := (invokeTo_le (Nat.le_max_left m m') (Nat.le_max_left d d') hf vs).done h
  have e' := (invokeTo_le (Nat.le_max_right m m') (Nat.le_max_right d d') hf vs).failed h'
  rw [e] at e'
  cases e'

namespace Argument

mutual

/-- Evaluating the argument comes to a function that strays. -/
def Strays (r : Registry) (frame : Frame) : Argument → Prop
  | leaf _ => False
  | call name arguments =>
    ListStrays r frame arguments ∨
      ∃ f vs, r.get? name = some f ∧ ListWorth r frame arguments vs ∧ r.Strays f vs

/-- The arguments have values up to one that strays. -/
def ListStrays (r : Registry) (frame : Frame) : List Argument → Prop
  | [] => False
  | a :: rest => a.Strays r frame ∨ (∃ w, a.Worth r frame w) ∧ ListStrays r frame rest

end

variable {f f' : Frame}

theorem listStrays_map {g : Argument → Argument} {as : List Argument}
    (hs : ∀ a ∈ as, a.Strays r f → (g a).Strays r f')
    (hw : ∀ a ∈ as, ∀ w, a.Worth r f w → (g a).Worth r f' w) (h : ListStrays r f as) :
    ListStrays r f' (as.map g) := by
  induction as with
  | nil => exact h
  | cons a rest ih =>
    rcases h with h | ⟨⟨w, ha⟩, h⟩
    · exact .inl (hs a (by simp) h)
    · exact .inr ⟨⟨w, hw a (by simp) w ha⟩,
        ih (fun b hb => hs b (by simp [hb])) (fun b hb => hw b (by simp [hb])) h⟩

/-- A renamed argument strays as well, where the new names hold the same values. -/
theorem Strays.rename {ρ : Variable → Variable} {a : Argument}
    (hv : ∀ v ∈ a.vars, f'.get (ρ v) = f.get v) (h : a.Strays r f) : (a.rename ρ).Strays r f' := by
  induction a with
  | leaf v => exact h
  | call name arguments ih =>
    have hvs : ∀ a ∈ arguments, ∀ v ∈ a.vars, f'.get (ρ v) = f.get v := by
      intro a ha v hm
      refine hv v ?_
      rw [vars, listVars_eq]
      exact List.mem_flatMap.mpr ⟨a, ha, hm⟩
    have hw : ∀ a ∈ arguments, ∀ w, a.Worth r f w → (a.rename ρ).Worth r f' w :=
      fun a ha w => (worth_rename (hvs a ha)).mpr
    rw [Argument.rename, renameList_eq]
    rcases h with h | ⟨g, vs, hg, hws, hs⟩
    · exact .inl (listStrays_map (fun a ha => ih a ha (hvs a ha)) hw h)
    · refine .inr ⟨g, vs, hg, listWorth_iff.mpr ?_, hs⟩
      rw [List.forall₂_map_left_iff]
      refine (forall₂_congr fun a ha w => ?_).mpr (listWorth_iff.mp hws)
      exact worth_rename (hvs a ha)

theorem Strays.congr {a : Argument} (hv : ∀ v ∈ a.vars, f'.get v = f.get v)
    (h : a.Strays r f) : a.Strays r f' := by
  have := h.rename (ρ := id) hv
  rwa [rename_id] at this

/-- An argument that has a value does not stray. -/
theorem Worth.not_strays {a : Argument} {w : Value} (h : a.Worth r f w) : ¬ a.Strays r f := by
  induction a generalizing w with
  | leaf v => exact id
  | call name arguments ih =>
    obtain ⟨g, vs, hg, hvs, hw⟩ := worth_call_iff.mp h
    rintro (hs | ⟨g', vs', hg', hvs', hs⟩)
    · clear hw h
      induction hvs with
      | nil => exact hs
      | cons ha _ ihs =>
        rcases hs with hs | ⟨-, hs⟩
        · exact ih _ (by simp) ha hs
        · exact ihs (fun b hb => ih b (by simp [hb])) hs
    · rw [hg] at hg'; cases hg'
      have hunique : Relator.RightUnique (Worth r f) := fun _ _ _ h h' => h.unique h'
      have e := List.right_unique_forall₂' hunique (listWorth_iff.mp hvs') hvs
      exact hw.not_strays (by rw [Registry.name_of_get? hg]; exact hg) (e ▸ hs)

/-- A bounded evaluation that fails at a jump to nowhere strays. -/
theorem strays_of_value {m d : Nat} {site s : Site} {l : Label} {a : Argument}
    (h : a.value r (r.invokeTo m d) site f = .failed (.unresolvedLabel l s)) : a.Strays r f := by
  have list : ∀ as : List Argument, (∀ a ∈ as,
      a.value r (r.invokeTo m d) site f = .failed (.unresolvedLabel l s) → a.Strays r f) →
      listValues r (r.invokeTo m d) site f as = .failed (.unresolvedLabel l s) →
      ListStrays r f as := by
    intro as ha h
    induction as with
    | nil => cases h
    | cons a rest ih =>
      rw [listValues] at h
      cases hv : a.value r (r.invokeTo m d) site f with
      | failed e => rw [hv] at h; cases h; exact .inl (ha a (by simp) hv)
      | unfinished => rw [hv] at h; cases h
      | done w =>
        rw [hv] at h
        cases hvs : listValues r (r.invokeTo m d) site f rest with
        | done ws => rw [hvs] at h; cases h
        | unfinished => rw [hvs] at h; cases h
        | failed e =>
          rw [hvs] at h; cases h
          exact .inr ⟨⟨w, worth_of_value hv⟩, ih (fun b hb => ha b (by simp [hb])) hvs⟩
  induction a with
  | leaf v => cases h
  | call name arguments ih =>
    rw [value] at h
    cases hvs : listValues r (r.invokeTo m d) site f arguments with
    | failed e => rw [hvs] at h; cases h; exact .inl (list arguments ih hvs)
    | unfinished => rw [hvs] at h; cases h
    | done vs =>
      rw [hvs, Registry.lookup] at h
      cases hg : r.get? name with
      | none => rw [hg] at h; cases h
      | some g =>
        rw [hg] at h
        have hw := forall₂_of_listValues (fun a _ w => worth_of_value (w := w)) hvs
        exact .inr ⟨g, vs, hg, listWorth_iff.mpr hw, m, d, l, s, h⟩

end Argument

/-! ## Sequences that stray -/

/-- The run comes to a jump to nowhere, or to a call that strays. -/
inductive Lost (r : Registry) (code : List Instruction) : Spot → Prop where
  | jump {c : Spot} {i : Instruction} {f : Frame} {l : Label} (hi : code[c.1]? = some i)
      (hx : i.command.Executes r c.2 f (.jump l)) (hl : l ∉ attached code) : Lost r code c
  | call {c : Spot} {i : Instruction} {call : Call} (hi : code[c.1]? = some i)
      (hc : i.command.call? = some call) (hs : call.toArgument.Strays r c.2) : Lost r code c
  | move {c c' : Spot} (h : Moves r code c c') (hl : Lost r code c') : Lost r code c

theorem Reaches.lost {P : Spot → Prop} {c : Spot} (h : Reaches r code P c)
    (hk : ∀ c, P c → Lost r code c) : Lost r code c := by
  induction h with
  | here h => exact hk _ h
  | move h _ ih => exact .move h ih

theorem Lost.not_ends (hu : (attached code).Nodup) {c : Spot} (h : Lost r code c) {n : Nat}
    {g : Frame} : ¬ Ends r code n c g := by
  intro he
  induction h generalizing n with
  | jump hi hx hl =>
    obtain ⟨m, f', signal, pc, -, hx', hg, -⟩ := he.step hi
    obtain ⟨-, rfl⟩ := hx.unique hx'
    cases hg with
    | jump hn hj hl' => exact hl (mem_attached.mpr ⟨hn, _, List.mem_of_getElem? hj, hl'⟩)
  | call hi hc hs =>
    obtain ⟨m, f', signal, pc, -, ⟨w, hw, -⟩, -⟩ := he.step hi
    exact (hw _ hc).not_strays hs
  | move h _ ih =>
    cases he with
    | stop ho => exact absurd h.lt (Nat.not_lt.mpr ho)
    | move h' he' => exact ih (h.unique hu h' ▸ he')

namespace Routine

variable {scope : Scope} {p : Routine} {s : State} {pc : Nat} {l : Label} {site : Site}

/-- Making a sequence ready does not look at its jumps. -/
theorem ofCode_ne_unresolved : ofCode code scope ≠ .error (.unresolvedLabel l site) := by
  intro h
  unfold ofCode at h
  cases ht : LabelTable.ofCode code scope with
  | error e =>
    rw [ht] at h; cases h
    obtain ⟨_, _, _, e⟩ := Check.eq_of_mem_duplicateLabels (LabelTable.ofCode_error_mem ht)
    cases e
  | ok t =>
    simp only [ht, bind, Except.bind] at h
    split at h
    · next e hf =>
      cases h
      obtain ⟨x, -, hf⟩ := List.exists_of_findSome?_eq_some hf
      cases hw : x.1.command.written? with
      | none => simp [hw] at hf
      | some v => simp [hw] at hf
    · cases h

/-- A bounded run that fails at a jump to nowhere is lost. -/
theorem lost_of_finishWith (hp : ofCode code scope = .ok p) {m d bound : Nat} (hs : s.At code pc)
    (h : p.finishWith r (r.invokeTo m d) bound s = .failed (.unresolvedLabel l site)) :
    Lost r code (pc, s.frame) := by
  induction bound generalizing s pc with
  | zero => cases h
  | succ bound ih =>
    rw [finishWith] at h
    split at h
    · cases h
    · next report next hstep =>
      obtain ⟨i, signal, pc', hi, hx, hgo, hat⟩ := of_stepWith_took hp hs hstep
      exact .move ⟨i, signal, hi, Command.executes_of_execute hx, hgo⟩ (ih hat h)
    · next e next hstep =>
      cases h
      obtain ⟨i, hh, hi, hcause⟩ := stepWith_failed_cases hstep
      rw [(ofCode_ok hp).1, List.getElem?_toArray, hs.pointer hh] at hi
      rcases hcause with ⟨hc, -⟩ | ⟨-, -, ⟨hx, -⟩ | ⟨f, l', hx, hpos, -⟩⟩
      · rcases r.instructionCost_fresh ⟨p.scope, s.position⟩ i with ⟨c, hc', -⟩ | ⟨e, hc', n, -, hb⟩
        · rw [hc] at hc'; cases hc'
        · rw [hc] at hc'; cases hc'
          cases hb
      · obtain ⟨call, hcall, hv⟩ := Command.execute_failed hx
        exact .call hi hcall (Argument.strays_of_value hv)
      · exact .jump hi (Command.executes_of_execute hx)
          ((LabelTable.position?_ofCode_eq_none (ofCode_ok hp).2.2).mp hpos)
    · cases h

end Routine

/-- The body of a function that strays is lost. -/
theorem Registry.Strays.lost {f : Function} {vs : List Value} (h : r.Strays f vs) :
    Lost r f.body (0, .starting f.body vs) := by
  obtain ⟨m, d, l, site, h⟩ := h
  cases d with
  | zero => cases h
  | succ d =>
    rw [invokeTo] at h
    cases hp : Routine.ofFunction f with
    | error e =>
      rw [hp] at h; cases h
      exact absurd hp Routine.ofCode_ne_unresolved
    | ok p =>
      rw [hp, Bounded.ofExcept, Bounded.done_bind] at h
      obtain ⟨hat, hframe⟩ := Routine.start_at hp vs
      cases hs : p.finishWith r (r.invokeTo m d) m (p.start vs) with
      | done s => rw [hs] at h; cases h
      | unfinished => rw [hs] at h; cases h
      | failed e =>
        rw [hs] at h; cases h
        exact hframe ▸ Routine.lost_of_finishWith hp hat hs

/-! ## Programs that stray -/

namespace Program

variable {p : Program} {q : Request}

/-- A run that fails at a jump to nowhere is lost. -/
theorem lost_of_run {s : Snapshot} (hs : p.expandTo q.degree = .ok s) {bound : Nat} {l : Label}
    {site : Site} (h : p.run bound q = .failed (.unresolvedLabel l site)) :
    Lost p.functions s.instructions (0, .starting s.instructions q.inputs) := by
  rw [run] at h
  cases hq : p.prepare q with
  | error e =>
    rw [hq] at h; cases h
    rw [prepare, hs] at hq
    simp only [bind, Except.bind] at hq
    split at hq
    · cases hq
    · exact absurd hq Routine.ofCode_ne_unresolved
  | ok routine =>
    obtain ⟨_, hs', -, hp⟩ := prepare_ok hq
    cases hs.symm.trans hs'
    obtain ⟨hat, hframe⟩ := Routine.start_at hp q.inputs
    rw [hq, Bounded.ofExcept, Bounded.done_bind, Routine.run] at h
    cases hf : routine.finish p.functions bound (routine.start q.inputs) with
    | done s => rw [hf] at h; cases h
    | unfinished => rw [hf] at h; cases h
    | failed e =>
      rw [hf] at h; cases h
      exact hframe ▸ Routine.lost_of_finishWith hp hat hf

/-- A run that is lost is never done. -/
theorem run_ne_done {s : Snapshot} (hs : p.expandTo q.degree = .ok s)
    (h : ∀ routine, Routine.ofCode s.instructions .program = .ok routine →
      Lost p.functions s.instructions (0, .starting s.instructions q.inputs))
    (bound : Nat) (o : Outcome) : p.run bound q ≠ .done o := by
  intro hr
  cases hq : p.prepare q with
  | error e => rw [run, hq] at hr; cases hr
  | ok routine =>
    obtain ⟨_, hs', -, hp⟩ := prepare_ok hq
    cases hs.symm.trans hs'
    obtain ⟨n, g, he, -⟩ := ends_of_run hq hp hr
    have hu := LabelTable.nodup_of_ofCode (Routine.ofCode_ok hp).2.2
    exact (h routine hp).not_ends hu he

end Program

end SLanguage
