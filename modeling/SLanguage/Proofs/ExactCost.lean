import SLanguage.Proofs.Cost

/-!
# The static cost is exact, up to the largest word

`Cost.exact val i` adds natural numbers where `Cost.plain` adds words. Sums of words stop at the
largest one wherever they are taken, among arguments, over a body or in a total, and these stops
compose: the word is the natural number, or the largest word if that is smaller (`Word.Caps`).
`Registry.Costs` is the exact cost of an instruction, and `instructionCost_exact` says when the
static cost exists and that it caps the exact one.
-/

namespace SLanguage

open Relation

/-! ## Words that stand for natural numbers -/

/-- The word is `n`, or the largest word if `n` is larger. -/
def Word.Caps (w : Word) (n : Nat) : Prop := w.toNat = min 18446744073709551615 n

theorem Word.caps_toNat (w : Word) : w.Caps w.toNat := by
  have := w.toNat_lt
  unfold Caps
  omega

theorem Word.Caps.add {a b : Word} {m n : Nat} (ha : a.Caps m) (hb : b.Caps n) :
    (Word.add a b).Caps (m + n) := by
  unfold Caps at ha hb ⊢
  rw [Word.toNat_add, Word.toNat_top, ha, hb]
  omega

/-! ## Exact costs, given those of bodies -/

variable {val : String → Cycles} {ex ex' : String → Nat}

namespace Argument

mutual

/-- The exact cost of evaluating an argument when the bodies cost `ex`. -/
def exactCost (ex : String → Nat) : Argument → Nat
  | leaf _ => 0
  | call name arguments => Operation.quote.cycles.toNat + listExactCost ex arguments + ex name

def listExactCost (ex : String → Nat) : List Argument → Nat
  | [] => 0
  | a :: rest => a.exactCost ex + listExactCost ex rest

end

theorem listExactCost_congr {as : List Argument} (h : ∀ a ∈ as, a.exactCost ex = a.exactCost ex') :
    listExactCost ex as = listExactCost ex' as := by
  induction as with
  | nil => rfl
  | cons a rest ih =>
    rw [listExactCost, listExactCost, h a (.head _), ih fun b hb => h b (.tail _ hb)]

theorem exactCost_congr {a : Argument} (h : ∀ n ∈ a.names, ex n = ex' n) :
    a.exactCost ex = a.exactCost ex' := by
  induction a with
  | leaf v => rfl
  | call name arguments ih =>
    have hs : ∀ a ∈ arguments, a.exactCost ex = a.exactCost ex' := fun a ha =>
      ih a ha fun n hn => h n (.tail _ (mem_listNames.mpr ⟨a, ha, hn⟩))
    rw [exactCost, exactCost, listExactCost_congr hs, h name (.head _)]

theorem listPlainCost_caps {as : List Argument}
    (h : ∀ a ∈ as, (a.plainCost val).Caps (a.exactCost ex)) {total : Cycles} {n : Nat}
    (ht : total.Caps n) : (listPlainCost val total as).Caps (n + listExactCost ex as) := by
  induction as generalizing total n with
  | nil => exact ht
  | cons a rest ih =>
    rw [listPlainCost, listExactCost, ← Nat.add_assoc]
    exact ih (fun b hb => h b (.tail _ hb)) (ht.add (h a (.head _)))

theorem plainCost_caps {a : Argument} (h : ∀ n ∈ a.names, (val n).Caps (ex n)) :
    (a.plainCost val).Caps (a.exactCost ex) := by
  induction a with
  | leaf v => exact Word.caps_toNat 0
  | call name arguments ih =>
    have hs : ∀ a ∈ arguments, (a.plainCost val).Caps (a.exactCost ex) := fun a ha =>
      ih a ha fun n hn => h n (.tail _ (mem_listNames.mpr ⟨a, ha, hn⟩))
    exact (listPlainCost_caps hs (Word.caps_toNat _)).add (h name (.head _))

end Argument

namespace Cost

/-- The exact cost of an instruction when the bodies cost `ex`. -/
def exact (ex : String → Nat) (i : Instruction) : Nat :=
  match i.call? with
  | some c => i.operation.cycles.toNat + Argument.listExactCost ex c.arguments + ex c.name
  | none => i.operation.cycles.toNat

/-- The exact cost of a body when the bodies that it calls cost `ex`. -/
def exactBody (ex : String → Nat) (f : Function) : Nat :=
  f.body.foldl (fun total i => total + exact ex i) 0

theorem exact_congr {i : Instruction} (h : ∀ n ∈ i.callNames, ex n = ex' n) :
    exact ex i = exact ex' i := by
  unfold exact
  cases hc : i.call? with
  | none => rfl
  | some c =>
    rw [Instruction.callNames, hc] at h
    have hs : ∀ a ∈ c.arguments, a.exactCost ex = a.exactCost ex' := fun a ha =>
      Argument.exactCost_congr fun n hn =>
        h n (.tail _ (Argument.mem_listNames.mpr ⟨a, ha, hn⟩))
    simp only [Argument.listExactCost_congr hs, h c.name (.head _)]

theorem exactBody_local : Registry.Local exactBody := by
  intro ex ex' f h
  refine List.foldl_ext _ _ _ fun total i hi => ?_
  rw [exact_congr fun n hn => h n (mem_calleesOf.mpr ⟨i, hi, hn⟩)]

theorem plain_caps {i : Instruction} (h : ∀ n ∈ i.callNames, (val n).Caps (ex n)) :
    (plain val i).Caps (exact ex i) := by
  unfold plain exact
  cases hc : i.call? with
  | none => exact Word.caps_toNat _
  | some c =>
    rw [Instruction.callNames, hc] at h
    have hs : ∀ a ∈ c.arguments, (a.plainCost val).Caps (a.exactCost ex) := fun a ha =>
      Argument.plainCost_caps fun n hn =>
        h n (.tail _ (Argument.mem_listNames.mpr ⟨a, ha, hn⟩))
    exact (Argument.listPlainCost_caps hs (Word.caps_toNat _)).add (h c.name (.head _))

theorem plainBody_caps {f : Function} (h : ∀ g ∈ f.callees, (val g).Caps (ex g)) :
    (plainBody val f).Caps (exactBody ex f) := by
  have fold : ∀ (code : List Instruction), (∀ i ∈ code, (plain val i).Caps (exact ex i)) →
      ∀ (total : Cycles) (n : Nat), total.Caps n →
        (code.foldl (fun total i => Word.add total (plain val i)) total).Caps
          (code.foldl (fun total i => total + exact ex i) n) := by
    intro code hcode
    induction code with
    | nil => exact fun _ _ ht => ht
    | cons i rest ih =>
      intro total n ht
      exact ih (fun j hj => hcode j (.tail _ hj)) _ _ (ht.add (hcode i (.head _)))
  refine fold f.body (fun i hi => plain_caps fun n hn => ?_) 0 0 (Word.caps_toNat 0)
  exact h n (mem_calleesOf.mpr ⟨i, hi, hn⟩)

end Cost

/-! ## The cost of an instruction -/

namespace Registry

variable {r : Registry}

/-- The exact cost of an instruction, from the exact costs of the bodies that it calls. -/
def Costs (r : Registry) (i : Instruction) (n : Nat) : Prop :=
  ∃ ex : String → Nat, (∀ name ∈ i.callNames, r.Computes Cost.exactBody name (ex name)) ∧
    n = Cost.exact ex i

theorem Costs.unique {i : Instruction} {m n : Nat} (hm : r.Costs i m) (hn : r.Costs i n) :
    m = n := by
  obtain ⟨ex, hex, rfl⟩ := hm
  obtain ⟨ex', hex', rfl⟩ := hn
  exact Cost.exact_congr fun name h => (hex name h).unique Cost.exactBody_local (hex' name h)

/-- The word for a body caps its exact cost. -/
theorem Computes.caps (hval : r.Solves Cost.plainBody val) {name : String} {n : Nat}
    (h : r.Computes Cost.exactBody name n) (hg : r.Grounded name) : (val name).Caps n := by
  induction h with
  | @intro name f ex hf _ ih =>
    rw [hval name f hg hf]
    exact Cost.plainBody_caps fun g hm => ih g hm (hg.call ⟨f, hf, hm⟩)

theorem exists_costs {i : Instruction} (hg : ∀ name ∈ i.callNames, r.Grounded name) :
    ∃ n, r.Costs i n := by
  choose! ex hex using fun name (h : name ∈ i.callNames) => (hg name h).computes Cost.exactBody
  exact ⟨_, ex, hex, rfl⟩

/-- The name stands in the call of the instruction, or in a body that is reached from there. -/
def Reached (r : Registry) (i : Instruction) (name : String) : Prop :=
  ∃ first ∈ i.callNames, ReflTransGen r.Calls first name

/-- What an instruction calls is grounded exactly if everything reached from it is registered and
none of it comes back to itself. -/
theorem grounded_iff_reached {i : Instruction} :
    (∀ n ∈ i.callNames, r.Grounded n) ↔
      ∀ name, r.Reached i name → r.contains name = true ∧ ¬ TransGen r.Calls name name := by
  constructor
  · rintro hg name ⟨first, hfirst, hreach⟩
    have hname := (hg first hfirst).reach hreach
    exact ⟨hname.contains, hname.not_recursive⟩
  · intro h
    rcases r.instructionCost_fresh ⟨.program, 1⟩ i with ⟨-, -, hg⟩ | ⟨e, -, n, hn, hb⟩
    · exact hg
    -- a cost that cannot be had blames something that is reached
    · cases hb with
      | unknown hreach hnone _ =>
        have := (h _ ⟨n, hn, hreach⟩).1
        rw [contains, hnone] at this
        cases this
      | recursion hreach hcycle => exact absurd hcycle (h _ ⟨n, hn, hreach⟩).2

/-- An instruction has a cost exactly if every function reached from its call is registered and lies
on no cycle of calls. The cost is then the exact one, or the largest word if that is smaller. -/
theorem instructionCost_exact (r : Registry) (site : Site) (i : Instruction) :
    ((∃ cost, (r.instructionCost site i).fresh = .ok cost) ↔
      ∀ name, r.Reached i name → r.contains name = true ∧ ¬ TransGen r.Calls name name) ∧
    ∀ cost, (r.instructionCost site i).fresh = .ok cost →
      ∃ n, (∀ m, r.Costs i m ↔ m = n) ∧ cost.toNat = min 18446744073709551615 n := by
  refine ⟨exists_instructionCost_iff.trans grounded_iff_reached, fun cost hcost => ?_⟩
  obtain ⟨val, hval⟩ := r.exists_solves Cost.plainBody_local
  obtain ⟨hg, rfl⟩ := (instructionCost_ensures hval site i).fresh_ok (holds_empty val) hcost
  obtain ⟨n, hn⟩ := exists_costs hg
  refine ⟨n, fun m => ⟨fun hm => hm.unique hn, fun e => e ▸ hn⟩, ?_⟩
  obtain ⟨ex, hex, rfl⟩ := hn
  exact Cost.plain_caps fun name h => (hex name h).caps hval (hg name h)

end Registry

end SLanguage
