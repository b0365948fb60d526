import Mathlib.Logic.Relation
import SLanguage.CallGraph

/-!
# The call graph as a relation

`r.Calls a b`: the body of the function `a` calls `b`, at any depth of a call tree. A name is
`Grounded` when it is registered and so is everything that it calls, down to bodies without calls;
the run of a grounded function meets neither an unknown name nor a recursion. What a sequence
reaches is closed under calls (`Calls.mem_reachableFrom`). The search for a recursion is complete:
when it finds none, no chain of calls comes back (`calls_wellFounded`).
-/

namespace SLanguage

open Relation

/-! ## The names in a call tree -/

namespace Argument

mutual

/-- The names of all calls in an argument. -/
def names : Argument → List String
  | leaf _ => []
  | call name arguments => name :: listNames arguments

def listNames : List Argument → List String
  | [] => []
  | a :: rest => a.names ++ listNames rest

end

theorem mem_listNames {as : List Argument} {n : String} :
    n ∈ listNames as ↔ ∃ a ∈ as, n ∈ a.names := by
  induction as with
  | nil => simp [listNames]
  | cons a rest ih => simp [listNames, ih]

theorem names_rename (f : Variable → Variable) (a : Argument) : (a.rename f).names = a.names := by
  have list : ∀ as : List Argument, (∀ a ∈ as, (a.rename f).names = a.names) →
      listNames (renameList f as) = listNames as := by
    intro as h
    induction as with
    | nil => rfl
    | cons a rest ih =>
      rw [renameList, listNames, listNames, h a (by simp), ih fun b hb => h b (by simp [hb])]
  induction a with
  | leaf v => rfl
  | call name arguments ih => rw [rename, names, names, list arguments ih]

end Argument

namespace Call

/-- The names of all calls in a call tree, its own first. -/
def names (c : Call) : List String := c.toArgument.names

theorem names_rename (f : Variable → Variable) (c : Call) : (c.rename f).names = c.names :=
  Argument.names_rename f c.toArgument

theorem mem_names_nested {c : Call} {n : String} :
    n ∈ c.names ↔ n = c.name ∨ ∃ d ∈ c.nested, n ∈ d.names := by
  rw [names, toArgument, Argument.names, List.mem_cons, Argument.mem_listNames]
  refine or_congr_right ⟨?_, ?_⟩
  · rintro ⟨a, ha, hn⟩
    cases a with
    | leaf v => simp [Argument.names] at hn
    | call name arguments =>
      exact ⟨⟨name, arguments⟩, List.mem_filterMap.mpr ⟨_, ha, rfl⟩, hn⟩
  · rintro ⟨d, hd, hn⟩
    obtain ⟨a, ha, e⟩ := List.mem_filterMap.mp hd
    cases a with
    | leaf v => cases e
    | call name arguments => cases e; exact ⟨_, ha, hn⟩

theorem mem_walk_names {queue : List Call} {n : String} :
    n ∈ (walk queue).map (·.name) ↔ ∃ c ∈ queue, n ∈ c.names := by
  fun_induction walk queue with
  | case1 => simp
  | case2 c queue ih =>
    rw [List.map_cons, List.mem_cons, ih]
    simp only [List.mem_append, List.mem_cons, or_and_right, exists_or, exists_eq_left,
      mem_names_nested (c := c)]
    rw [or_comm (a := ∃ x, x ∈ queue ∧ _), or_assoc]

theorem mem_breadthFirst_names {c : Call} {n : String} :
    n ∈ c.breadthFirst.map (·.name) ↔ n ∈ c.names := by
  rw [breadthFirst, mem_walk_names]; simp

end Call

/-- The names called by an instruction. -/
def Instruction.callNames (i : Instruction) : List String := (i.call?.map Call.names).getD []

theorem mem_calleesOf {code : List Instruction} {n : String} :
    n ∈ calleesOf code ↔ ∃ i ∈ code, n ∈ i.callNames := by
  rw [calleesOf, List.mem_eraseDups, List.mem_flatMap]
  constructor
  · rintro ⟨c, hc, hn⟩
    obtain ⟨i, hi, e⟩ := List.mem_filterMap.mp hc
    exact ⟨i, hi, by simpa [Instruction.callNames, e] using Call.mem_breadthFirst_names.mp hn⟩
  · rintro ⟨i, hi, hn⟩
    cases e : i.call? with
    | none => simp [Instruction.callNames, e] at hn
    | some c =>
      refine ⟨c, List.mem_filterMap.mpr ⟨i, hi, e⟩, Call.mem_breadthFirst_names.mpr ?_⟩
      simpa [Instruction.callNames, e] using hn

/-! ## Calls between functions -/

namespace Registry

variable {r : Registry}

/-- The body of the function `a` calls `b`. -/
def Calls (r : Registry) (a b : String) : Prop := ∃ f, r.get? a = some f ∧ b ∈ f.callees

/-- The name and every name called on the way down from it are registered, and the way ends. -/
inductive Grounded (r : Registry) : String → Prop where
  | intro {name : String} {f : Function} (hf : r.get? name = some f)
      (hs : ∀ g ∈ f.callees, Grounded r g) : Grounded r name

theorem Grounded.contains {name : String} (h : r.Grounded name) : r.contains name = true := by
  cases h with
  | intro hf _ => rw [Registry.contains, hf]; rfl

theorem Grounded.call {a b : String} (h : r.Grounded a) (hab : r.Calls a b) : r.Grounded b := by
  obtain ⟨f, hf, hb⟩ := hab
  cases h with
  | intro hg hs =>
    rw [hf] at hg; cases hg
    exact hs b hb

theorem Grounded.reach {a b : String} (h : r.Grounded a) (hab : ReflTransGen r.Calls a b) :
    r.Grounded b := by
  induction hab with
  | refl => exact h
  | tail _ hbc ih => exact ih.call hbc

/-- A grounded function never comes back to itself. -/
theorem Grounded.not_recursive {a : String} (h : r.Grounded a) : ¬ TransGen r.Calls a a := by
  induction h with
  | intro hf _ ih =>
    intro ha
    obtain ⟨b, ⟨f, hf', hb⟩, hba⟩ := TransGen.head'_iff.mp ha
    rw [hf] at hf'; cases hf'
    exact ih b hb (TransGen.tail' hba ⟨_, hf, hb⟩)

theorem grounded_of_wellFounded (hw : WellFounded fun b a => r.Calls a b)
    (hk : ∀ a b, r.Calls a b → r.contains b = true) {name : String}
    (hn : r.contains name = true) : r.Grounded name := by
  induction name using hw.induction with
  | h name ih =>
    obtain ⟨f, hf⟩ := Option.isSome_iff_exists.mp hn
    refine .intro hf fun g hg => ?_
    have hc : r.Calls name g := ⟨f, hf, hg⟩
    exact ih g hc (hk _ _ hc)

/-! ## What a sequence can reach -/

/-- What is reached stays reached; the names in the queue are, if they are registered; and what is
reached on the way brings its callees along. -/
theorem reach_closed (r : Registry) (reached queue : List String) :
    reached ⊆ r.reach reached queue ∧
    (∀ n ∈ queue, r.contains n = true → n ∈ r.reach reached queue) ∧
    ∀ a ∈ r.reach reached queue, a ∈ reached ∨
      ∀ b, r.Calls a b → r.contains b = true → b ∈ r.reach reached queue := by
  fun_induction reach r reached queue with
  | case1 => exact ⟨List.Subset.refl _, List.forall_mem_nil _, fun a ha => .inl ha⟩
  | case2 reached name queue hs ih =>
    obtain ⟨h1, h2, h3⟩ := ih
    exact ⟨h1, List.forall_mem_cons.mpr ⟨fun _ => h1 hs, h2⟩, h3⟩
  | case3 reached name queue hs hf ih =>
    obtain ⟨h1, h2, h3⟩ := ih
    refine ⟨h1, List.forall_mem_cons.mpr ⟨fun hn => ?_, h2⟩, h3⟩
    rw [contains, hf] at hn; cases hn
  | case4 reached name queue hs f hf ih =>
    obtain ⟨h1, h2, h3⟩ := ih
    refine ⟨fun n hn => h1 (List.mem_append_left _ hn), List.forall_mem_cons.mpr ⟨fun _ => ?_, ?_⟩,
      fun a ha => ?_⟩
    · exact h1 (List.mem_append_right _ (List.mem_singleton.mpr rfl))
    · exact fun n hn => h2 n (List.mem_append_left _ hn)
    · rcases h3 a ha with hm | hc
      · rcases List.mem_append.mp hm with hm | hm
        · exact .inl hm
        · refine .inr ?_
          rintro b ⟨g, hg, hb⟩ hk
          rw [List.mem_singleton.mp hm, hf] at hg; cases hg
          exact h2 b (List.mem_append_right _ hb) hk
      · exact .inr hc

theorem callees_subset_reachableFrom {code : List Instruction} {i : Instruction} (hi : i ∈ code)
    {n : String} (hn : n ∈ i.callNames) (hk : r.contains n = true) : n ∈ r.reachableFrom code :=
  (r.reach_closed [] _).2.1 n (mem_calleesOf.mpr ⟨i, hi, hn⟩) hk

theorem Calls.mem_reachableFrom {code : List Instruction} {a b : String} (h : r.Calls a b)
    (ha : a ∈ r.reachableFrom code) (hk : r.contains b = true) : b ∈ r.reachableFrom code :=
  ((r.reach_closed [] _).2.2 a ha).resolve_left (List.not_mem_nil) b h hk

/-! ## The search for a recursion -/

/-- No chain of calls from `name` goes on forever. -/
abbrev Finite (r : Registry) (name : String) : Prop := Acc (fun b a => r.Calls a b) name

theorem finite_of_get?_eq_none {name : String} (h : r.get? name = none) : r.Finite name := by
  refine .intro _ ?_
  rintro g ⟨f, hf, -⟩
  rw [h] at hf; cases hf

/-- A search that comes through leaves only names from which every chain of calls ends, the name it
started from among them. -/
theorem search_finite (path finished : List String) (name : String) {finished' : List String}
    (h : r.search path finished name = .ok finished') (hfin : ∀ n ∈ finished, r.Finite n) :
    (∀ n ∈ finished', r.Finite n) ∧ r.Finite name := by
  induction hm : r.outside path using Nat.strongRecOn generalizing path finished name finished' with
  | ind m ih =>
    rw [search] at h
    split at h
    · cases h
    next hp =>
    split at h
    · next hn => cases h; exact ⟨hfin, hfin name hn⟩
    split at h
    · next hf => cases h; exact ⟨hfin, finite_of_get?_eq_none hf⟩
    next f hf =>
    -- the callees are searched one after the other, each with what the ones before it finished
    have step : ∀ (gs fin fin' : List String),
        gs.foldlM (r.search (path ++ [name])) fin = .ok fin' → (∀ n ∈ fin, r.Finite n) →
        (∀ n ∈ fin', r.Finite n) ∧ ∀ g ∈ gs, r.Finite g := by
      intro gs
      induction gs with
      | nil => intro fin fin' h hfin; cases h; exact ⟨hfin, by simp⟩
      | cons g gs ihg =>
        intro fin fin' h hfin
        rw [List.foldlM_cons] at h
        cases hg : r.search (path ++ [name]) fin g with
        | error chain => rw [hg] at h; cases h
        | ok fin1 =>
          rw [hg] at h
          have hlt := outside_append_lt (mem_names_of_get? hf) hp
          obtain ⟨h1, h2⟩ := ih _ (hm ▸ hlt) _ _ _ hg hfin rfl
          obtain ⟨h3, h4⟩ := ihg fin1 fin' h h1
          exact ⟨h3, by simpa using ⟨h2, h4⟩⟩
    cases hs : f.callees.foldlM (r.search (path ++ [name])) finished with
    | error chain => rw [hs] at h; cases h
    | ok fin1 =>
      rw [hs] at h; cases h
      obtain ⟨h1, h2⟩ := step _ _ _ hs hfin
      have hname : r.Finite name := by
        refine .intro _ ?_
        rintro g ⟨f', hf', hg⟩
        rw [hf] at hf'; cases hf'
        exact h2 g hg
      exact ⟨by simpa using ⟨hname, h1⟩, hname⟩

/-- Without a recursion every chain of calls ends. -/
theorem calls_wellFounded (h : r.findRecursion = none) : WellFounded fun b a => r.Calls a b := by
  have all : ∀ (names fin fin' : List String), names.foldlM (r.search []) fin = .ok fin' →
      (∀ n ∈ fin, r.Finite n) → ∀ n ∈ names, r.Finite n := by
    intro names
    induction names with
    | nil => intro _ _ _ _ n hn; cases hn
    | cons name names ih =>
      intro fin fin' h hfin
      rw [List.foldlM_cons] at h
      cases hs : r.search [] fin name with
      | error chain => rw [hs] at h; cases h
      | ok fin1 =>
        rw [hs] at h
        obtain ⟨h1, h2⟩ := search_finite _ _ _ hs hfin
        simpa using ⟨h2, ih fin1 fin' h h1⟩
  rw [findRecursion] at h
  split at h
  · cases h
  next fin hfin =>
  refine ⟨fun name => ?_⟩
  cases hf : r.get? name with
  | none => exact finite_of_get?_eq_none hf
  | some f => exact all _ _ _ hfin (by simp) name (mem_names_of_get? hf)

theorem not_recursive_of_findRecursion (h : r.findRecursion = none) (name : String) :
    ¬ TransGen r.Calls name name := by
  induction name using (calls_wellFounded h).transGen.induction with
  | h name ih => exact fun hname => ih name (transGen_swap.mp hname) hname

end Registry

end SLanguage
