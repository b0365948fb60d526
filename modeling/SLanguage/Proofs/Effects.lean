import SLanguage.Proofs.Blocks
import SLanguage.Proofs.Monotone

/-!
# Effects without bounds

A call is worth what some bounded run of it answers (`Argument.Worth`), and a command executes when
its call is worth something (`Command.Executes`). Both are determined, and a renaming that keeps the
variables in play apart carries them over (`Executes.rename`); frames that agree on these variables
are the case of no renaming (`Executes.agree`).
-/

namespace SLanguage

variable {r : Registry}

/-! ## The value of a call -/

/-- The function answers `w`, within some bound. -/
def Registry.Answers (r : Registry) (f : Function) (vs : List Value) (w : Value) : Prop :=
  ∃ bound depth, r.invokeTo bound depth f vs = .done w

theorem Registry.Answers.unique {f : Function} (hf : r.get? f.name = some f) {vs : List Value}
    {w w' : Value} (h : r.Answers f vs w) (h' : r.Answers f vs w') : w = w' := by
  obtain ⟨m, d, h⟩ := h
  obtain ⟨m', d', h'⟩ := h'
  have e := (invokeTo_le (Nat.le_max_left m m') (Nat.le_max_left d d') hf vs).done h
  have e' := (invokeTo_le (Nat.le_max_right m m') (Nat.le_max_right d d') hf vs).done h'
  rw [e] at e'
  exact Bounded.done.inj e'

namespace Argument

mutual

/-- The argument has a value in the frame. -/
def Worth (r : Registry) (frame : Frame) : Argument → Value → Prop
  | leaf v, w => w = frame.get v
  | call name arguments, w =>
    ∃ f vs, r.get? name = some f ∧ ListWorth r frame arguments vs ∧ r.Answers f vs w

def ListWorth (r : Registry) (frame : Frame) : List Argument → List Value → Prop
  | [], vs => vs = []
  | a :: rest, vs => ∃ w ws, vs = w :: ws ∧ a.Worth r frame w ∧ ListWorth r frame rest ws

end

variable {f f' : Frame}

theorem listWorth_iff {as : List Argument} {vs : List Value} :
    ListWorth r f as vs ↔ List.Forall₂ (Worth r f) as vs := by
  induction as generalizing vs with
  | nil => simp [ListWorth]
  | cons a rest ih =>
    rw [ListWorth, List.forall₂_cons_left_iff]
    simp only [ih]
    constructor
    · rintro ⟨w, ws, rfl, hw, hws⟩; exact ⟨w, ws, hw, hws, rfl⟩
    · rintro ⟨w, ws, hw, hws, rfl⟩; exact ⟨w, ws, rfl, hw, hws⟩

theorem worth_call_iff {name : String} {as : List Argument} {w : Value} :
    (call name as).Worth r f w ↔
      ∃ g vs, r.get? name = some g ∧ List.Forall₂ (Worth r f) as vs ∧ r.Answers g vs w := by
  simp only [Worth, listWorth_iff]

theorem Worth.unique {a : Argument} {w w' : Value} (h : a.Worth r f w) (h' : a.Worth r f w') :
    w = w' := by
  induction a generalizing w w' with
  | leaf v => exact h.trans h'.symm
  | call name arguments ih =>
    obtain ⟨g, vs, hg, hvs, hw⟩ := worth_call_iff.mp h
    obtain ⟨g', vs', hg', hvs', hw'⟩ := worth_call_iff.mp h'
    rw [hg] at hg'; cases hg'
    have e : vs = vs' := by
      clear hw hw' h h'
      induction hvs generalizing vs' with
      | nil => cases hvs'; rfl
      | cons hv _ ihs =>
        cases hvs' with
        | cons hv' hvs' =>
          rw [ih _ (by simp) hv hv', ihs (fun a ha => ih a (by simp [ha])) _ hvs']
    subst e
    exact hw.unique (by rw [Registry.name_of_get? hg]; exact hg) hw'

theorem forall₂_congr {α β : Type} {R S : α → β → Prop} {as : List α} {bs : List β}
    (h : ∀ a ∈ as, ∀ b, R a b ↔ S a b) : List.Forall₂ R as bs ↔ List.Forall₂ S as bs := by
  induction as generalizing bs with
  | nil => rw [List.forall₂_nil_left_iff, List.forall₂_nil_left_iff]
  | cons a rest ih =>
    rw [List.forall₂_cons_left_iff, List.forall₂_cons_left_iff]
    simp only [h a (by simp), fun bs => @ih bs fun x hx => h x (by simp [hx])]

/-- A renamed argument is worth the same where the new names hold the same values. -/
theorem worth_rename {ρ : Variable → Variable} {a : Argument}
    (h : ∀ v ∈ a.vars, f'.get (ρ v) = f.get v) {w : Value} :
    (a.rename ρ).Worth r f' w ↔ a.Worth r f w := by
  induction a generalizing w with
  | leaf v => rw [rename, Worth, Worth, h v (by simp [vars])]
  | call name arguments ih =>
    rw [rename, renameList_eq, worth_call_iff, worth_call_iff]
    refine exists_congr fun g => exists_congr fun vs => and_congr_right fun _ =>
      and_congr_left fun _ => ?_
    rw [List.forall₂_map_left_iff]
    refine forall₂_congr fun a ha w => ih a ha fun v hv => h v ?_
    rw [vars, listVars_eq]
    exact List.mem_flatMap.mpr ⟨a, ha, hv⟩

theorem rename_id (a : Argument) : a.rename id = a := by
  induction a with
  | leaf v => rfl
  | call name arguments ih =>
    rw [rename, renameList_eq, List.map_congr_left ih, List.map_id']

theorem worth_congr {a : Argument} (h : ∀ v ∈ a.vars, f'.get v = f.get v) {w : Value} :
    a.Worth r f' w ↔ a.Worth r f w := by
  have := worth_rename (r := r) (ρ := id) (a := a) (w := w) h
  rwa [rename_id] at this

/-- What holds of the values of arguments holds of the list of their values. -/
theorem forall₂_of_listValues {R : Argument → Value → Prop} {invoke : Invoke} {site : Site}
    {as : List Argument} (ha : ∀ a ∈ as, ∀ w, a.value r invoke site f = .done w → R a w)
    {vs : List Value} (h : listValues r invoke site f as = .done vs) : List.Forall₂ R as vs := by
  induction as generalizing vs with
  | nil => cases h; exact .nil
  | cons a rest ih =>
    rw [listValues] at h
    cases hv : a.value r invoke site f with
    | failed e => rw [hv] at h; cases h
    | unfinished => rw [hv] at h; cases h
    | done v =>
      rw [hv] at h
      cases hvs : listValues r invoke site f rest with
      | failed e => rw [hvs] at h; cases h
      | unfinished => rw [hvs] at h; cases h
      | done ws =>
        rw [hvs] at h; cases h
        exact .cons (ha a (by simp) v hv) (ih (fun b hb => ha b (by simp [hb])) hvs)

/-- What a bounded evaluation finds, the argument is worth. -/
theorem worth_of_value {m d : Nat} {site : Site} {a : Argument} {w : Value}
    (h : a.value r (r.invokeTo m d) site f = .done w) : a.Worth r f w := by
  induction a generalizing w with
  | leaf v => cases h; rfl
  | call name arguments ih =>
    rw [value] at h
    cases hvs : listValues r (r.invokeTo m d) site f arguments with
    | failed e => rw [hvs] at h; cases h
    | unfinished => rw [hvs] at h; cases h
    | done vs =>
      rw [hvs] at h
      cases hg : r.get? name with
      | none => simp [Registry.lookup, hg, Bounded.ofExcept] at h
      | some g =>
        simp only [Registry.lookup, hg, Bounded.ofExcept, Bounded.done_bind] at h
        exact worth_call_iff.mpr
          ⟨g, vs, hg, forall₂_of_listValues (fun a ha w => ih a ha) hvs, m, d, h⟩

/-- What an argument is worth, every evaluation with enough bound and depth finds. -/
theorem Worth.exists_bound {a : Argument} {w : Value} (h : a.Worth r f w) (site : Site) :
    ∃ bound depth, ∀ m, bound ≤ m → ∀ d, depth ≤ d →
      a.value r (r.invokeTo m d) site f = .done w := by
  have list : ∀ as : List Argument, (∀ a ∈ as, ∀ w, a.Worth r f w →
      ∃ bound depth, ∀ m, bound ≤ m → ∀ d, depth ≤ d →
        a.value r (r.invokeTo m d) site f = .done w) →
      ∀ vs, List.Forall₂ (Worth r f) as vs → ∃ bound depth, ∀ m, bound ≤ m → ∀ d, depth ≤ d →
        listValues r (r.invokeTo m d) site f as = .done vs := by
    intro as ha
    induction as with
    | nil => intro vs h; cases h; exact ⟨0, 0, fun _ _ _ _ => rfl⟩
    | cons a rest ih =>
      intro vs h
      cases h with
      | cons hv hvs =>
        obtain ⟨m1, d1, h1⟩ := ha a (by simp) _ hv
        obtain ⟨m2, d2, h2⟩ := ih (fun b hb => ha b (by simp [hb])) _ hvs
        refine ⟨max m1 m2, max d1 d2, fun m hm d hd => ?_⟩
        rw [listValues, h1 m (by omega) d (by omega), Bounded.done_bind,
          h2 m (by omega) d (by omega), Bounded.done_bind]
  induction a generalizing w with
  | leaf v => exact ⟨0, 0, fun _ _ _ _ => congrArg _ h.symm⟩
  | call name arguments ih =>
    obtain ⟨g, vs, hg, hvs, m2, d2, h2⟩ := worth_call_iff.mp h
    obtain ⟨m1, d1, h1⟩ := list arguments (fun a ha w => ih a ha) vs hvs
    refine ⟨max m1 m2, max d1 d2, fun m hm d hd => ?_⟩
    have hname : r.get? g.name = some g := by rw [Registry.name_of_get? hg]; exact hg
    rw [value, h1 m (by omega) d (by omega), Bounded.done_bind, Registry.lookup, hg]
    exact (Registry.invokeTo_le (by omega) (by omega) hname vs).done h2

end Argument

theorem Call.worth_rename {f f' : Frame} {ρ : Variable → Variable} {c : Call}
    (h : ∀ v ∈ c.vars, f'.get (ρ v) = f.get v) {w : Value} :
    (c.rename ρ).toArgument.Worth r f' w ↔ c.toArgument.Worth r f w :=
  Argument.worth_rename (a := c.toArgument) h

/-! ## Effects under a renaming -/

namespace Signal

theorem goto_of_ne {l : Label} (h : l ≠ .exit) : goto l = .jump l := by
  cases l with
  | exit => exact absurd rfl h
  | _ => rfl

/-- The signal of the renamed command. -/
def rename (g : Label → Label) : Signal → Signal
  | next => next
  | halt => goto (g .exit)
  | jump l => goto (g l)

theorem rename_gotoIf (g : Label → Label) (b : Bool) (l : Label) :
    (gotoIf b l).rename g = gotoIf b (g l) := by
  cases b <;> cases l <;> rfl

theorem rename_id {s : Signal} (h : s ≠ .jump .exit) : s.rename id = s := by
  cases s with
  | next => rfl
  | halt => rfl
  | jump l => cases l <;> first | rfl | exact absurd rfl h

end Signal

/-- A constant cannot be set. -/
theorem Frame.set_constant (f : Frame) {v : Variable} (hv : v.isConstant = true) (w : Value) :
    f.set v w = f :=
  if_pos hv

namespace Command

theorem execute_total (c : Command) (w : Value) (f : Frame) :
    ∃ f' signal, c.execute (fun _ => .done w) f = .done (f', signal) := by
  cases c <;> exact ⟨_, _, rfl⟩

variable {ρ : Variable → Variable} {g : Label → Label} {S : Variable → Prop} {b h : Frame}
  {c : Command}

theorem get_set_rename (hinj : ∀ u v, S u → S v → ρ u = ρ v → u = v)
    (hl : ∀ u, S u → h.get (ρ u) = b.get u) {v : Variable} (hv : S v)
    (hc : (ρ v).isConstant = v.isConstant) (x : Value) {u : Variable}
    (hu : S u) : (h.set (ρ v) x).get (ρ u) = (b.set v x).get u := by
  cases hk : v.isConstant with
  | true => rw [Frame.set_constant _ (hc.trans hk), Frame.set_constant _ hk, hl u hu]
  | false =>
    rw [Frame.get_set _ (hc.trans hk), Frame.get_set _ hk]
    by_cases e : u = v
    · rw [if_pos e, if_pos (congrArg ρ e)]
    · rw [if_neg e, if_neg fun e' => e (hinj u v hu hv e'), hl u hu]

/-- A renaming that keeps the variables of `S` apart, and constants constant, carries a command
over; nothing changes but operands that can. -/
theorem execute_rename (hS : ∀ v ∈ c.vars, S v) (hinj : ∀ u v, S u → S v → ρ u = ρ v → u = v)
    (hc : ∀ v ∈ c.operands, (ρ v).isConstant = v.isConstant)
    (hl : ∀ u, S u → h.get (ρ u) = b.get u) {w : Value} {b' : Frame} {signal : Signal}
    (he : c.execute (fun _ => .done w) b = .done (b', signal)) :
    ∃ h', (c.rename ρ g).execute (fun _ => .done w) h = .done (h', signal.rename g) ∧
      (∀ u, S u → h'.get (ρ u) = b'.get u) ∧
      ∀ u, (∀ v ∈ c.operands, v.isConstant = false → u ≠ ρ v) → h'.get u = h.get u := by
  have hop : ∀ v ∈ c.operands, S v := fun v hv => hS v (List.mem_append_left _ hv)
  have write {v : Variable} (hv : v ∈ c.operands) (x : Value) :
      (∀ u, S u → (h.set (ρ v) x).get (ρ u) = (b.set v x).get u) ∧
        ∀ u, (∀ v ∈ c.operands, v.isConstant = false → u ≠ ρ v) →
          (h.set (ρ v) x).get u = h.get u := by
    refine ⟨fun u hu => get_set_rename hinj hl (hop v hv) (hc v hv) x hu, fun u hu => ?_⟩
    cases hk : v.isConstant with
    | true => rw [Frame.set_constant _ ((hc v hv).trans hk)]
    | false => rw [Frame.get_set _ ((hc v hv).trans hk), if_neg (hu v hv hk)]
  cases c with
  | increase v =>
    cases he
    have hv : v ∈ (increase v).operands := List.mem_singleton.mpr rfl
    refine ⟨_, rfl, ?_⟩
    rw [Frame.increment, hl v (hop v hv)]
    exact write hv _
  | decrease v =>
    cases he
    have hv : v ∈ (decrease v).operands := List.mem_singleton.mpr rfl
    refine ⟨_, rfl, ?_⟩
    rw [Frame.decrement, hl v (hop v hv)]
    exact write hv _
  | neutral v => cases he; exact ⟨_, rfl, hl, fun _ _ => rfl⟩
  | jumpNotZero v l =>
    cases he
    refine ⟨_, ?_, hl, fun _ _ => rfl⟩
    rw [Signal.rename_gotoIf, rename, execute, hl v (hop v (List.mem_singleton.mpr rfl))]
  | zero v =>
    cases he
    exact ⟨_, rfl, write (List.mem_singleton.mpr rfl) _⟩
  | assignConstant v k =>
    cases he
    exact ⟨_, rfl, write (List.mem_singleton.mpr rfl) _⟩
  | assign v w =>
    cases he
    refine ⟨_, rfl, ?_⟩
    rw [hl w (hop w (List.mem_pair.mpr (.inr rfl)))]
    exact write (List.mem_pair.mpr (.inl rfl)) _
  | goto l =>
    cases he
    exact ⟨_, congrArg _ (congrArg _ (Signal.rename_gotoIf g true l).symm), hl, fun _ _ => rfl⟩
  | jumpZero v l =>
    cases he
    refine ⟨_, ?_, hl, fun _ _ => rfl⟩
    rw [Signal.rename_gotoIf, rename, execute, hl v (hop v (List.mem_singleton.mpr rfl))]
  | jumpEqualConstant v k l =>
    cases he
    refine ⟨_, ?_, hl, fun _ _ => rfl⟩
    rw [Signal.rename_gotoIf, rename, execute, hl v (hop v (List.mem_singleton.mpr rfl))]
  | jumpEqualVariable v w l =>
    cases he
    refine ⟨_, ?_, hl, fun _ _ => rfl⟩
    rw [Signal.rename_gotoIf, rename, execute, hl v (hop v (List.mem_pair.mpr (.inl rfl))),
      hl w (hop w (List.mem_pair.mpr (.inr rfl)))]
  | quote v call =>
    cases he
    exact ⟨_, rfl, write (List.mem_singleton.mpr rfl) _⟩
  | jumpEqualCall v call l =>
    cases he
    refine ⟨_, ?_, hl, fun _ _ => rfl⟩
    rw [Signal.rename_gotoIf, rename, execute, hl v (hop v (List.mem_singleton.mpr rfl))]
    rfl

theorem rename_id (c : Command) : c.rename id id = c := by
  have hcall : ∀ call : Call, call.rename id = call := by
    rintro ⟨name, arguments⟩
    have := Argument.rename_id (.call name arguments)
    rw [Argument.rename, Argument.call.injEq] at this
    exact congrArg _ this.2
  cases c <;> simp [rename, hcall]

/-- The command can be executed: what it calls has a value. -/
def Executes (r : Registry) (c : Command) (f f' : Frame) (signal : Signal) : Prop :=
  ∃ w, (∀ call, c.call? = some call → call.toArgument.Worth r f w) ∧
    c.execute (fun _ => .done w) f = .done (f', signal)

theorem Executes.plain {f f' : Frame} {signal : Signal} (hc : c.call? = none)
    (h : c.execute (fun _ => .done 0) f = .done (f', signal)) : c.Executes r f f' signal :=
  ⟨0, fun call hcall => (by rw [hc] at hcall; cases hcall), h⟩

theorem Executes.unique {f f' f'' : Frame} {signal signal' : Signal}
    (h : c.Executes r f f' signal) (h' : c.Executes r f f'' signal') :
    f' = f'' ∧ signal = signal' := by
  obtain ⟨w, hw, h⟩ := h
  obtain ⟨w', hw', h'⟩ := h'
  have e : c.execute (fun _ => .done w) f = c.execute (fun _ => .done w') f := by
    cases hc : c.call? with
    | none => cases c <;> first | rfl | cases hc
    | some call => rw [(hw call hc).unique (hw' call hc)]
  rw [e, h'] at h
  cases h
  exact ⟨rfl, rfl⟩

theorem call?_rename (c : Command) : (c.rename ρ g).call? = c.call?.map (·.rename ρ) := by
  cases c <;> rfl

theorem vars_of_call? {call : Call} (hc : c.call? = some call) : call.vars ⊆ c.vars := by
  rw [vars, hc]
  exact List.subset_append_right _ _

section
variable (hS : ∀ v ∈ c.vars, S v) (hinj : ∀ u v, S u → S v → ρ u = ρ v → u = v)
  (hc : ∀ v ∈ c.operands, (ρ v).isConstant = v.isConstant)
  (hl : ∀ u, S u → h.get (ρ u) = b.get u)
include hS hinj hc hl

theorem Executes.rename {b' : Frame} {signal : Signal} (he : c.Executes r b b' signal) :
    ∃ h', (c.rename ρ g).Executes r h h' (signal.rename g) ∧
      (∀ u, S u → h'.get (ρ u) = b'.get u) ∧
      ∀ u, (∀ v ∈ c.operands, v.isConstant = false → u ≠ ρ v) → h'.get u = h.get u := by
  obtain ⟨w, hw, he⟩ := he
  obtain ⟨h', he', hrest⟩ := execute_rename (g := g) hS hinj hc hl he
  refine ⟨h', ⟨w, fun call hcall => ?_, he'⟩, hrest⟩
  rw [call?_rename] at hcall
  obtain ⟨call, hc', rfl⟩ := Option.map_eq_some_iff.mp hcall
  exact (Call.worth_rename fun v hv => hl v (hS v (vars_of_call? hc' hv))).mpr (hw call hc')

omit hinj hc in
/-- If the renamed command can be executed, so can the command. -/
theorem Executes.of_rename {h' : Frame} {signal : Signal}
    (he : (c.rename ρ g).Executes r h h' signal) :
    ∃ b' signal', c.Executes r b b' signal' := by
  obtain ⟨w, hw, -⟩ := he
  obtain ⟨b', signal', he⟩ := execute_total c w b
  refine ⟨b', signal', w, fun call hcall => ?_, he⟩
  have := hw (call.rename ρ) (by rw [call?_rename, hcall]; rfl)
  exact (Call.worth_rename fun v hv => hl v (hS v (vars_of_call? hcall hv))).mp this

end

/-- Frames that agree on the variables in play give the same effect. -/
theorem Executes.agree (hS : ∀ v ∈ c.vars, S v) (hl : ∀ u, S u → h.get u = b.get u)
    {b' : Frame} {signal : Signal}
    (he : c.Executes r b b' signal) :
    ∃ h', c.Executes r h h' signal ∧ (∀ u, S u → h'.get u = b'.get u) ∧
      ∀ u, u ∉ c.operands → h'.get u = h.get u := by
  have hne : signal ≠ .jump .exit := by
    rintro rfl
    obtain ⟨w, -, he⟩ := he
    exact (execute_jump he).2 rfl
  obtain ⟨h', he', hS', hrest⟩ := he.rename (ρ := id) (g := id) hS (fun _ _ _ _ e => e)
    (fun _ _ => rfl) hl
  rw [rename_id, Signal.rename_id hne] at he'
  exact ⟨h', he', hS', fun u hu => hrest u fun v hv _ e => hu (e ▸ hv)⟩

end Command

end SLanguage
