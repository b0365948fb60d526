import Mathlib.Logic.Equiv.Basic
import SLanguage.Proofs.Lockstep
import SLanguage.Proofs.SpliceRuns

/-!
# Runs of a renamed sequence

A `Renaming` keeps variables apart, labels apart, and constants, the empty label and the exit as
they are. A renamed call tree has the same cost, a renamed command the same effect under the new
names, and a renamed label stands where the label stood (`Renaming.position?`). So a sequence and
its renaming match (`Routine.matched_renamed`), and two runs that start alike stay so
(`execution_renamed`).
-/

namespace SLanguage

/-- New names, with no two made one. -/
structure Renaming where
  onVariable : Variable → Variable
  onLabel : Label → Label
  variable_injective : Function.Injective onVariable
  label_injective : Function.Injective onLabel
  constant : ∀ k, onVariable (.constant k) = .constant k
  empty : onLabel .empty = .empty
  exit : onLabel .exit = .exit

namespace Renaming

variable (ρ : Renaming)

def instruction (i : Instruction) : Instruction := i.rename ρ.onVariable ρ.onLabel

def code (code : List Instruction) : List Instruction := code.map ρ.instruction

/-- What is not a constant becomes none. -/
theorem isConstant (v : Variable) : (ρ.onVariable v).isConstant = v.isConstant := by
  cases hk : ρ.onVariable v with
  | constant k =>
    rw [ρ.variable_injective (hk.trans (ρ.constant k).symm)]
  | _ =>
    cases v with
    | constant k => rw [ρ.constant k] at hk; cases hk
    | _ => rfl

theorem isNamed (l : Label) : (ρ.onLabel l).isNamed = l.isNamed := by
  cases hk : ρ.onLabel l with
  | empty => rw [ρ.label_injective (hk.trans ρ.empty.symm)]
  | exit => rw [ρ.label_injective (hk.trans ρ.exit.symm)]
  | named name =>
    cases l with
    | empty => rw [ρ.empty] at hk; cases hk
    | exit => rw [ρ.exit] at hk; cases hk
    | named _ => rfl

theorem onLabel_eq_exit (l : Label) : ρ.onLabel l = .exit ↔ l = .exit :=
  ⟨fun e => ρ.label_injective (e.trans ρ.exit.symm), fun e => e ▸ ρ.exit⟩

/-! ## Sequences -/

theorem attached_code (code : List Instruction) :
    attached (ρ.code code) = (attached code).map ρ.onLabel := by
  rw [attached, attached, Renaming.code, List.map_map, List.filter_map, List.filter_map,
    List.map_map]
  refine congrArg _ (List.filter_congr fun i _ => ρ.isNamed i.label)

theorem written? (c : Command) :
    (c.rename ρ.onVariable ρ.onLabel).written? = c.written?.map ρ.onVariable := by
  cases c <;> rfl

theorem assignable_code {code : List Instruction} : Assignable (ρ.code code) ↔ Assignable code := by
  unfold Assignable
  rw [Renaming.code, List.forall_mem_map]
  refine forall₂_congr fun i _ => ?_
  rw [instruction, Instruction.rename, written?]
  constructor
  · intro h v hv
    rw [← ρ.isConstant v]
    exact h _ (by rw [hv]; rfl)
  · intro h w hw
    obtain ⟨v, hv, rfl⟩ := Option.map_eq_some_iff.mp hw
    rw [ρ.isConstant v]
    exact h v hv

/-- The renamed sequence can be made ready exactly if the sequence can. -/
theorem exists_ofCode {code : List Instruction} {scope : Scope} :
    (∃ p, Routine.ofCode code scope = .ok p) ↔
      ∃ p', Routine.ofCode (ρ.code code) scope = .ok p' := by
  rw [Routine.exists_ofCode_iff, Routine.exists_ofCode_iff, attached_code, assignable_code,
    List.nodup_map_iff ρ.label_injective]

/-- A renamed label stands where the label stood. -/
theorem position? {code : List Instruction} {scope : Scope} {t t' : LabelTable}
    (ht : LabelTable.ofCode code scope = .ok t)
    (ht' : LabelTable.ofCode (ρ.code code) scope = .ok t') (l : Label) :
    t'.position? (ρ.onLabel l) = t.position? l := by
  refine Option.ext fun k => ?_
  rw [LabelTable.position?_ofCode ht', LabelTable.position?_ofCode ht, isNamed, Renaming.code]
  refine and_congr_right fun _ => ?_
  constructor
  · rintro ⟨i', hi', hl⟩
    rw [List.getElem?_map] at hi'
    obtain ⟨i, hi, rfl⟩ := Option.map_eq_some_iff.mp hi'
    exact ⟨i, hi, ρ.label_injective hl⟩
  · rintro ⟨i, hi, rfl⟩
    exact ⟨ρ.instruction i, by rw [List.getElem?_map, hi]; rfl, rfl⟩

end Renaming

/-! ## Cost -/

section
variable {σ : Type} (f : Variable → Variable) (g : Label → Label)

theorem Argument.listCost_rename {body : String → EStateM Fault σ Cycles} {as : List Argument}
    (h : ∀ a ∈ as, (a.rename f).cost body = a.cost body) (total : Cycles) :
    listCost body total (renameList f as) = listCost body total as := by
  induction as generalizing total with
  | nil => rfl
  | cons a rest ih =>
    rw [renameList, listCost, listCost, h a (.head _)]
    exact congrArg _ (funext fun c => ih (fun b hb => h b (.tail _ hb)) _)

theorem Argument.cost_rename (body : String → EStateM Fault σ Cycles) (a : Argument) :
    (a.rename f).cost body = a.cost body := by
  induction a with
  | leaf v => rfl
  | call name arguments ih => rw [rename, cost, cost, listCost_rename f ih]

theorem Cost.ofInstruction_rename (callee : Site → String → EStateM Fault σ Cycles) (site : Site)
    (i : Instruction) : ofInstruction callee site (i.rename f g) = ofInstruction callee site i := by
  have hop : (i.rename f g).operation = i.operation := by
    obtain ⟨l, command⟩ := i
    cases command <;> rfl
  have hcall : (i.rename f g).call? = i.call?.map (·.rename f) := Command.call?_rename i.command
  rw [ofInstruction, ofInstruction, hop, hcall]
  cases i.call? with
  | none => rfl
  | some c =>
    rw [Option.map_some]
    dsimp only
    rw [ofCall, ofCall, Call.rename,
      Argument.listCost_rename f fun a _ => Argument.cost_rename f _ a]

end

/-! ## Values and effects -/

/-- The second frame holds under the new names what the first one holds. -/
def Frame.Renamed (ρ : Renaming) (f h : Frame) : Prop := ∀ v, h.get (ρ.onVariable v) = f.get v

section
variable {ρ : Renaming} {f h : Frame}

theorem Frame.renamed_empty (ρ : Renaming) : ({} : Frame).Renamed ρ {} := by
  intro v
  have hc := ρ.isConstant v
  cases hv : v.isConstant with
  | true =>
    cases v with
    | constant k => rw [ρ.constant]
    | _ => cases hv
  | false =>
    rw [get_of_not_constant _ hv, get_of_not_constant _ (hc.trans hv)]
    rfl

theorem Frame.Renamed.set (hl : f.Renamed ρ h) (v : Variable) (x : Value) :
    (f.set v x).Renamed ρ (h.set (ρ.onVariable v) x) := fun u =>
  Command.get_set_rename (S := fun _ => True) (fun _ _ _ _ e => ρ.variable_injective e)
    (fun w _ => hl w) trivial (ρ.isConstant v) x (u := u) trivial

end

/-! ## Steps -/

/-- The second state is the first one under the new names. -/
abbrev State.Renamed (ρ : Renaming) : State → State → Prop := State.Lockstep (Frame.Renamed ρ)

/-- What the steps from `s` and `t` do is the same under the new names. -/
abbrev Step.Renamed (ρ : Renaming) : Site → State → State → Step → Step → Prop :=
  Step.Lockstep (Frame.Renamed ρ) ρ.onLabel

/-- The state after a step from `s`, whatever the step gave. -/
def Step.state (s : State) : Step → State
  | took _ next | failed _ next => next
  | halted | unfinished => s

theorem Step.Renamed.state {ρ : Renaming} {site : Site} {s t : State} {x y : Step}
    (h : x.Renamed ρ site s t y) (hst : s.Renamed ρ t) : (x.state s).Renamed ρ (y.state t) := by
  cases h with
  | took _ h => exact h
  | strayed _ h _ => exact h
  | _ => exact hst

namespace Routine

variable {ρ : Renaming} {r : Registry} {invoke : Invoke} {code : List Instruction} {scope : Scope}
  {p p' : Routine} {s t : State}

/-- A sequence and its renaming match. -/
theorem matched_renamed (hp : ofCode code scope = .ok p)
    (hp' : ofCode (ρ.code code) scope = .ok p') :
    Matched r (Frame.Renamed ρ) ρ.onLabel p p' := by
  obtain ⟨hcode, hscope, hlabels⟩ := ofCode_ok hp
  obtain ⟨hcode', hscope', hlabels'⟩ := ofCode_ok hp'
  refine ⟨hscope'.trans hscope.symm, ?_, ρ.position? hlabels hlabels', ρ.onLabel_eq_exit,
    fun k i hi => ⟨ρ.instruction i, ?_, fun site => Cost.ofInstruction_rename _ _ _ _ i,
      fun invoke site f h hl => ?_⟩⟩
  · rw [hcode, hcode', List.size_toArray, List.size_toArray, Renaming.code, List.length_map]
  · rw [hcode, List.getElem?_toArray] at hi
    rw [hcode', List.getElem?_toArray, Renaming.code, List.getElem?_map, hi, Option.map_some]
  · have hx := Command.execute_carried (g := ρ.onLabel) (S := fun _ => True) (c := i.command)
      (fun _ _ => trivial) (fun _ _ _ _ e => ρ.variable_injective e) (fun v _ => ρ.isConstant v)
      (fun v _ => hl v) r invoke site
    exact hx.imp fun x y hxy => ⟨fun v => hxy.1 v trivial, hxy.2⟩

theorem stepWith_renamed (hp : ofCode code scope = .ok p)
    (hp' : ofCode (ρ.code code) scope = .ok p') (h : s.Renamed ρ t) :
    (p.stepWith r invoke s).Renamed ρ ⟨scope, s.position⟩ s t (p'.stepWith r invoke t) :=
  (ofCode_ok hp).2.1 ▸ stepWith_lockstep (matched_renamed hp hp') h

/-- The state after a number of steps, whatever they gave. -/
def after (p : Routine) (r : Registry) (bound : Nat) : (steps : Nat) → State → State
  | 0, s => s
  | n + 1, s => p.after r bound n ((p.step r bound s).state s)

theorem after_renamed (hp : ofCode code scope = .ok p)
    (hp' : ofCode (ρ.code code) scope = .ok p') (h : s.Renamed ρ t) (bound n : Nat) :
    (p.after r bound n s).Renamed ρ (p'.after r bound n t) := by
  induction n generalizing s t with
  | zero => exact h
  | succ n ih => exact ih ((stepWith_renamed hp hp' h).state h)

/-- A sequence and its renaming are accepted alike, and from states that are alike they go in
lockstep: after any number of steps the states are alike, and so is the next step. -/
theorem execution_renamed (ρ : Renaming) (r : Registry) (code : List Instruction) (scope : Scope) :
    ((∃ p, ofCode code scope = .ok p) ↔ ∃ p', ofCode (ρ.code code) scope = .ok p') ∧
    ∀ p p', ofCode code scope = .ok p → ofCode (ρ.code code) scope = .ok p' →
      ∀ s t : State, s.Renamed ρ t → ∀ bound n,
        (p.after r bound n s).Renamed ρ (p'.after r bound n t) ∧
        (p.step r bound (p.after r bound n s)).Renamed ρ ⟨scope, (p.after r bound n s).position⟩
          (p.after r bound n s) (p'.after r bound n t)
          (p'.step r bound (p'.after r bound n t)) := by
  refine ⟨ρ.exists_ofCode, fun p p' hp hp' s t h bound n => ?_⟩
  have hn := after_renamed (r := r) hp hp' h bound n
  exact ⟨hn, stepWith_renamed hp hp' hn⟩

end Routine

/-- Two variables and two labels change places. -/
def Renaming.swap (x y : Variable) (l m : Label) (hx : x.isConstant = false)
    (hy : y.isConstant = false) (hl : l.isNamed = true) (hm : m.isNamed = true) : Renaming where
  onVariable := Equiv.swap x y
  onLabel := Equiv.swap l m
  variable_injective := (Equiv.swap x y).injective
  label_injective := (Equiv.swap l m).injective
  constant k := by
    refine Equiv.swap_apply_of_ne_of_ne ?_ ?_ <;> rintro rfl
    · cases hx
    · cases hy
  empty := by
    refine Equiv.swap_apply_of_ne_of_ne ?_ ?_ <;> rintro rfl
    · cases hl
    · cases hm
  exit := by
    refine Equiv.swap_apply_of_ne_of_ne ?_ ?_ <;> rintro rfl
    · cases hl
    · cases hm

/-- A loop that counts `x1` down and `y` up. The last jump leads nowhere. -/
def countdown : List Instruction :=
  [⟨.named "L1", .decrease (.input 1)⟩,
   ⟨.empty, .increase .result⟩,
   ⟨.empty, .jumpNotZero (.input 1) (.named "L1")⟩,
   ⟨.empty, .goto (.named "L2")⟩]

/-- `x1` and `z1` change places, and `L1` and `L2`. -/
def exchange : Renaming := .swap (.input 1) (.work 1) (.named "L1") (.named "L2") rfl rfl rfl rfl

/-- Before the first instruction, with 2 in a variable. -/
def State.twoIn (v : Variable) : State where
  frame := ({} : Frame).set v 2
  pointer := 0
  cycles := 0
  steps := 0
  halted := false

theorem State.renamed_twoIn : (twoIn (.input 1)).Renamed exchange (twoIn (.work 1)) :=
  ⟨(Frame.renamed_empty exchange).set (.input 1) 2, rfl, rfl, rfl, rfl⟩

/-- Six steps through the loop, then the jump that leads nowhere. -/
theorem Routine.countdown_renamed : ∃ p p', ofCode countdown .program = .ok p ∧
    ofCode (exchange.code countdown) .program = .ok p' ∧
    (State.twoIn (.input 1)).Renamed exchange (.twoIn (.work 1)) ∧
    (p'.after .empty 0 6 (.twoIn (.work 1))).frame.result = 2 ∧
    ∃ t, p'.step .empty 0 (p'.after .empty 0 6 (.twoIn (.work 1))) =
      .failed (.unresolvedLabel (.named "L1") ⟨.program, 4⟩) t := by
  obtain ⟨haccept, hrun⟩ := execution_renamed exchange .empty countdown .program
  obtain ⟨p, hp⟩ : ∃ p, ofCode countdown .program = .ok p := ⟨_, rfl⟩
  obtain ⟨p', hp'⟩ := haccept.mp ⟨p, hp⟩
  obtain ⟨hstate, hstep⟩ := hrun p p' hp hp' _ _ State.renamed_twoIn 0 6
  refine ⟨p, p', hp, hp', State.renamed_twoIn, ?_, ?_⟩
  · have hresult : (p'.after .empty 0 6 (.twoIn (.work 1))).frame.result = _ :=
      hstate.frame .result
    rw [hresult]
    cases hp
    decide +kernel
  · have hs : ∃ s', p.step .empty 0 (p.after .empty 0 6 (.twoIn (.input 1))) =
        .failed (.unresolvedLabel (.named "L2") ⟨.program, 4⟩) s' ∧ s'.steps = 7 := by
      cases hp
      exact ⟨_, rfl, rfl⟩
    obtain ⟨hsteps, hposition⟩ : (p.after .empty 0 6 (.twoIn (.input 1))).steps = 6 ∧
        (p.after .empty 0 6 (.twoIn (.input 1))).position = 4 := by
      cases hp
      exact ⟨rfl, rfl⟩
    obtain ⟨s', hs, hsteps'⟩ := hs
    rw [hs, hposition] at hstep
    generalize p'.step _ _ _ = y at hstep ⊢
    cases hstep with
    | failed => rw [hsteps] at hsteps'; cases hsteps'
    | strayed l h _ => exact ⟨_, rfl⟩

end SLanguage
