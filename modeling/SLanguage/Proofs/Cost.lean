import Mathlib.Data.List.Basic
import SLanguage.Cost
import SLanguage.Proofs.BodyAnalysis

/-!
# The static cost exists exactly for grounded calls

`Cost.plain val i` is the cost of an instruction when the bodies cost `val`. The memoised cost of an
instruction is its plain cost if every name that it calls is grounded, and otherwise a fault that
blames one of these names (`instructionCost_ensures`).
-/

namespace SLanguage

open MemoM

variable {I : Memo Cycles → Prop} {known : String → Prop} {err : Fault → Prop}
  {val val' : String → Cycles}

namespace Argument

mutual

/-- The cost of evaluating an argument when the bodies cost `val`. -/
def plainCost (val : String → Cycles) : Argument → Cycles
  | leaf _ => 0
  | call name arguments =>
    Word.add (listPlainCost val Operation.quote.cycles arguments) (val name)

def listPlainCost (val : String → Cycles) (total : Cycles) : List Argument → Cycles
  | [] => total
  | a :: rest => listPlainCost val (Word.add total (a.plainCost val)) rest

end

theorem listPlainCost_congr {as : List Argument}
    (h : ∀ a ∈ as, a.plainCost val = a.plainCost val') (total : Cycles) :
    listPlainCost val total as = listPlainCost val' total as := by
  induction as generalizing total with
  | nil => rfl
  | cons a rest ih =>
    rw [listPlainCost, listPlainCost, h a (by simp), ih fun b hb => h b (by simp [hb])]

theorem plainCost_congr {a : Argument} (h : ∀ n ∈ a.names, val n = val' n) :
    a.plainCost val = a.plainCost val' := by
  induction a with
  | leaf v => rfl
  | call name arguments ih =>
    have hs : ∀ a ∈ arguments, a.plainCost val = a.plainCost val' := fun a ha =>
      ih a ha fun n hn => h n (List.mem_cons_of_mem _ (mem_listNames.mpr ⟨a, ha, hn⟩))
    rw [plainCost, plainCost, listPlainCost_congr hs, h name (by simp [names])]

theorem ensures_listCost {body : String → MemoM Cycles Cycles} {as : List Argument}
    (h : ∀ a ∈ as, Ensures I (fun c => (∀ n ∈ a.names, known n) ∧ c = a.plainCost val) err
      (a.cost body)) (total : Cycles) :
    Ensures I (fun c => (∀ n ∈ listNames as, known n) ∧ c = listPlainCost val total as) err
      (listCost body total as) := by
  induction as generalizing total with
  | nil => exact ensures_pure ⟨by simp [listNames], rfl⟩
  | cons a rest ih =>
    refine (h a (by simp)).bind ?_
    rintro _ ⟨ha, rfl⟩
    refine (ih (fun b hb => h b (by simp [hb])) _).mono (fun c hc => ⟨?_, hc.2⟩) fun _ he => he
    intro n hn
    exact (List.mem_append.mp hn).elim (ha n) (hc.1 n)

theorem ensures_cost {body : String → MemoM Cycles Cycles} {a : Argument}
    (h : ∀ n ∈ a.names, Ensures I (fun c => known n ∧ c = val n) err (body n)) :
    Ensures I (fun c => (∀ n ∈ a.names, known n) ∧ c = a.plainCost val) err (a.cost body) := by
  induction a with
  | leaf v => exact ensures_pure ⟨by simp [names], rfl⟩
  | call name arguments ih =>
    have hs : ∀ a ∈ arguments, Ensures I _ err (a.cost body) := fun a ha =>
      ih a ha fun n hn => h n (List.mem_cons_of_mem _ (mem_listNames.mpr ⟨a, ha, hn⟩))
    refine (ensures_listCost hs _).bind ?_
    rintro _ ⟨hns, rfl⟩
    refine (h name (by simp [names])).bind ?_
    rintro _ ⟨hn, rfl⟩
    exact ensures_pure ⟨by simpa [names] using ⟨hn, hns⟩, rfl⟩

end Argument

namespace Cost

/-- The cost of an instruction when the bodies cost `val`. -/
def plain (val : String → Cycles) (i : Instruction) : Cycles :=
  match i.call? with
  | some c => Word.add (Argument.listPlainCost val i.operation.cycles c.arguments) (val c.name)
  | none => i.operation.cycles

/-- The cost of a body when the bodies that it calls cost `val`. -/
def plainBody (val : String → Cycles) (f : Function) : Cycles :=
  f.body.foldl (fun total i => Word.add total (plain val i)) 0

theorem plain_congr {i : Instruction} (h : ∀ n ∈ i.callNames, val n = val' n) :
    plain val i = plain val' i := by
  unfold plain
  cases hc : i.call? with
  | none => rfl
  | some c =>
    have h' : ∀ n ∈ c.names, val n = val' n := by simpa [Instruction.callNames, hc] using h
    have hs : ∀ a ∈ c.arguments, a.plainCost val = a.plainCost val' := fun a ha =>
      Argument.plainCost_congr fun n hn =>
        h' n (List.mem_cons_of_mem _ (Argument.mem_listNames.mpr ⟨a, ha, hn⟩))
    have hn : val c.name = val' c.name := h' c.name (List.mem_cons_self ..)
    simp only [Argument.listPlainCost_congr hs, hn]

theorem ensures_ofInstruction {callee : Site → String → MemoM Cycles Cycles} {site : Site}
    {i : Instruction}
    (h : ∀ n ∈ i.callNames, Ensures I (fun c => known n ∧ c = val n) err (callee site n)) :
    Ensures I (fun c => (∀ n ∈ i.callNames, known n) ∧ c = plain val i) err
      (ofInstruction callee site i) := by
  unfold ofInstruction plain
  cases hc : i.call? with
  | none => exact ensures_pure ⟨by simp [Instruction.callNames, hc], rfl⟩
  | some c =>
    have e : i.callNames = c.name :: Argument.listNames c.arguments := by
      rw [Instruction.callNames, hc]; rfl
    rw [e] at h ⊢
    have hs : ∀ a ∈ c.arguments, Ensures I _ err (a.cost (callee site)) := fun a ha =>
      Argument.ensures_cost fun n hn =>
        h n (List.mem_cons_of_mem _ (Argument.mem_listNames.mpr ⟨a, ha, hn⟩))
    refine (Argument.ensures_listCost hs _).bind ?_
    rintro _ ⟨hns, rfl⟩
    refine (h c.name (List.mem_cons_self ..)).bind ?_
    rintro _ ⟨hn, rfl⟩
    exact ensures_pure ⟨by simpa using ⟨hn, hns⟩, rfl⟩

theorem ofBody_follows : ofBody.Follows plainBody := by
  intro f callee I known err val h
  refine ensures_sequence (fun k i hi total => ?_) 0
  refine (ensures_ofInstruction fun n hn => h _ n ⟨k, i, hi, rfl, hn⟩).bind ?_
  rintro _ ⟨hns, rfl⟩
  exact ensures_pure ⟨hns, rfl⟩

theorem plainBody_local : Registry.Local plainBody := by
  intro val val' f h
  unfold plainBody
  refine List.foldl_ext _ _ _ fun total i hi => ?_
  rw [plain_congr fun n hn => h n (mem_calleesOf.mpr ⟨i, hi, hn⟩)]

end Cost

namespace Registry

variable {r : Registry}

theorem instructionCost_ensures (hval : r.Solves Cost.plainBody val) (site : Site)
    (i : Instruction) :
    Ensures (r.Holds val) (fun c => (∀ n ∈ i.callNames, r.Grounded n) ∧ c = Cost.plain val i)
      (fun e => ∃ n ∈ i.callNames, r.Blames site n e) (r.instructionCost site i) :=
  Cost.ensures_ofInstruction fun n hn =>
    (analyse_ensures Cost.ofBody_follows hval [] site n (by simp)).mono (fun _ h => h)
      fun _ he => ⟨n, hn, he⟩

/-- An instruction whose calls are all grounded has a cost, and any other blames one of them. -/
theorem instructionCost_fresh (r : Registry) (site : Site) (i : Instruction) :
    (∃ c, (r.instructionCost site i).fresh = .ok c ∧ ∀ n ∈ i.callNames, r.Grounded n) ∨
    (∃ e, (r.instructionCost site i).fresh = .error e ∧ ∃ n ∈ i.callNames, r.Blames site n e) := by
  obtain ⟨val, hval⟩ := r.exists_solves Cost.plainBody_local
  have h := instructionCost_ensures hval site i
  cases hc : (r.instructionCost site i).fresh with
  | ok c => exact .inl ⟨c, rfl, (h.fresh_ok (holds_empty val) hc).1⟩
  | error e => exact .inr ⟨e, rfl, h.fresh_error (holds_empty val) hc⟩

/-- An instruction has a cost exactly if all that it calls is grounded. -/
theorem exists_instructionCost_iff {site : Site} {i : Instruction} :
    (∃ cost, (r.instructionCost site i).fresh = .ok cost) ↔ ∀ n ∈ i.callNames, r.Grounded n := by
  rcases r.instructionCost_fresh site i with ⟨cost, hc, hg⟩ | ⟨e, he, n, hn, hb⟩
  · exact iff_of_true ⟨cost, hc⟩ hg
  · refine iff_of_false ?_ fun hg => hb.not_grounded (hg n hn)
    rintro ⟨cost, hc⟩
    rw [hc] at he
    cases he

end Registry

end SLanguage
