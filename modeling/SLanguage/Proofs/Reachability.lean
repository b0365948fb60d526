import SLanguage.Proofs.Legality

/-!
# What a sequence reaches, in the order of distance

A function is reached by a chain of calls: the sequence invokes the first function, and the body of
each registered function of the chain invokes the next (`Registry.CallChain`). While a queue of
names is visited, it holds the rest of one level, `now`, and behind it what was found of the
following one, `next` (`Registry.Frontier`). A visit keeps that, so the names are reached in the
order of their distance from the sequence, the length of a shortest chain.
-/

namespace SLanguage.Registry

variable {r : Registry} {code : List Instruction} {n : Nat} {name : String}
  {reached now next queue : List String}

/-- A chain of `n` calls from the sequence to a function, nested calls included. -/
inductive CallChain (r : Registry) (code : List Instruction) : Nat → String → Prop where
  | direct {i : Instruction} {name : String} (hi : i ∈ code) (h : i.Invokes name) :
      CallChain r code 1 name
  | through {n : Nat} {a b : String} (h : CallChain r code n a) (hab : r.Invokes a b) :
      CallChain r code (n + 1) b

/-- A shortest chain of calls from the sequence to the function has length `n`. -/
structure Distance (r : Registry) (code : List Instruction) (name : String) (n : Nat) : Prop where
  chain : r.CallChain code n name
  least : ∀ m, r.CallChain code m name → n ≤ m

theorem CallChain.exists_distance (h : r.CallChain code n name) : ∃ d, r.Distance code name d := by
  classical
  have hex : ∃ m, r.CallChain code m name := ⟨n, h⟩
  exact ⟨Nat.find hex, Nat.find_spec hex, fun m hm => Nat.find_min' hex hm⟩

theorem Invokes.contains {a b : String} (h : r.Invokes a b) : r.contains a = true := by
  obtain ⟨f, hf, -⟩ := h
  rw [Registry.contains, hf]
  rfl

/-! ## The invariant of a visit -/

/-- No chain to `b` is shorter than all chains to `a`. -/
def NoFarther (r : Registry) (code : List Instruction) (a b : String) : Prop :=
  ∀ n, r.CallChain code n b → ∃ m ≤ n, r.CallChain code m a

/-- Between two visits at distance `n`: the names to visit at this distance and, behind them, names
found for the next one. -/
structure Frontier (r : Registry) (code : List Instruction) (n : Nat)
    (reached now next : List String) : Prop where
  pos : 1 ≤ n
  nodup : reached.Nodup
  registered : ∀ a ∈ reached, r.contains a = true
  near : ∀ a ∈ reached, ∃ m ≤ n, r.CallChain code m a
  ordered : reached.Pairwise (r.NoFarther code)
  now_chain : ∀ a ∈ now, r.CallChain code n a
  next_chain : ∀ a ∈ next, r.CallChain code (n + 1) a
  /-- What is nearer has been reached, and what is as near is reached or still to visit. -/
  covered : ∀ m a, r.CallChain code m a → m ≤ n → r.contains a = true →
    a ∈ reached ∨ (m = n ∧ a ∈ now)
  closed : ∀ a ∈ reached, ∀ b, r.Invokes a b → r.contains b = true →
    b ∈ reached ∨ b ∈ now ∨ b ∈ next

namespace Frontier

theorem start (r : Registry) (code : List Instruction) :
    r.Frontier code 1 [] (calleesOf code) [] where
  pos := Nat.le_refl 1
  nodup := .nil
  registered := List.forall_mem_nil _
  near := List.forall_mem_nil _
  ordered := .nil
  now_chain := by
    intro a ha
    obtain ⟨i, hi, ha⟩ := mem_calleesOf.mp ha
    exact .direct hi (Instruction.mem_callNames_iff.mp ha)
  next_chain := List.forall_mem_nil _
  covered := by
    intro m a h hm _
    cases h with
    | direct hi h =>
      exact .inr ⟨rfl, mem_calleesOf.mpr ⟨_, hi, Instruction.mem_callNames_iff.mpr h⟩⟩
    | @through k a' _ h _ =>
      -- a chain is never empty
      have hk : 1 ≤ k := by cases h <;> omega
      omega
  closed := List.forall_mem_nil _

/-- With one level done the names behind it are the next level. -/
theorem advance (h : r.Frontier code n reached [] next) :
    r.Frontier code (n + 1) reached next [] where
  pos := by omega
  nodup := h.nodup
  registered := h.registered
  near := by
    intro a ha
    obtain ⟨m, hm, hc⟩ := h.near a ha
    exact ⟨m, by omega, hc⟩
  ordered := h.ordered
  now_chain := h.next_chain
  next_chain := List.forall_mem_nil _
  covered := by
    intro m a hc hm ha
    by_cases hle : m ≤ n
    · exact .inl ((h.covered m a hc hle ha).resolve_right fun hx => List.not_mem_nil hx.2)
    cases hc with
    | direct => have := h.pos; omega
    | @through k b _ hb hba =>
      have hk : k ≤ n := by omega
      have hreached := (h.covered k b hb hk hba.contains).resolve_right
        fun hx => List.not_mem_nil hx.2
      rcases h.closed b hreached a hba ha with hx | hx | hx
      · exact .inl hx
      · exact absurd hx List.not_mem_nil
      · exact .inr ⟨by omega, hx⟩
  closed := by
    intro a ha b hab hb
    rcases h.closed a ha b hab hb with hx | hx | hx
    · exact .inl hx
    · exact absurd hx List.not_mem_nil
    · exact .inr (.inl hx)

/-- A name that was reached before, or that nothing is registered under, is passed over. -/
theorem skip (h : r.Frontier code n reached (name :: now) next)
    (hn : r.contains name = true → name ∈ reached) : r.Frontier code n reached now next := by
  have drop : ∀ a, r.contains a = true → a ∈ name :: now → a ∈ reached ∨ a ∈ now := by
    intro a ha hm
    rcases List.mem_cons.mp hm with rfl | hm
    · exact .inl (hn ha)
    · exact .inr hm
  exact { h with
    now_chain := fun a ha => h.now_chain a (.tail _ ha)
    covered := by
      intro m a hc hm ha
      rcases h.covered m a hc hm ha with hx | ⟨hmn, hx⟩
      · exact .inl hx
      · exact (drop a ha hx).imp_right fun hx => ⟨hmn, hx⟩
    closed := by
      intro a ha b hab hb
      rcases h.closed a ha b hab hb with hx | hx | hx
      · exact .inl hx
      · exact (drop b hb hx).imp_right .inl
      · exact .inr (.inr hx) }

/-- A new name is reached after all that is nearer, and what its body calls is one call farther. -/
theorem visit (h : r.Frontier code n reached (name :: now) next) (hn : name ∉ reached)
    {f : Function} (hf : r.get? name = some f) :
    r.Frontier code n (reached ++ [name]) now (next ++ f.callees) := by
  have hname : r.contains name = true := by rw [contains, hf]; rfl
  have hchain : r.CallChain code n name := h.now_chain name (.head _)
  have calls : ∀ b, b ∈ f.callees ↔ r.Invokes name b := by
    intro b
    rw [invokes_iff_calls]
    constructor
    · exact fun hb => ⟨f, hf, hb⟩
    · rintro ⟨g, hg, hb⟩
      rw [hf] at hg
      cases hg
      exact hb
  exact {
    pos := h.pos
    nodup := List.nodup_append.mpr ⟨h.nodup, List.nodup_singleton name, fun a ha b hb e =>
      hn (List.mem_singleton.mp hb ▸ e ▸ ha)⟩
    registered := List.forall_mem_append.mpr ⟨h.registered, List.forall_mem_singleton.mpr hname⟩
    near := List.forall_mem_append.mpr
      ⟨h.near, List.forall_mem_singleton.mpr ⟨n, Nat.le_refl n, hchain⟩⟩
    ordered := by
      refine List.pairwise_append.mpr ⟨h.ordered, List.pairwise_singleton _ _, ?_⟩
      intro a ha b hb k hk
      rw [List.mem_singleton.mp hb] at hk
      -- a shorter chain to the name would have reached it before
      have hle : n ≤ k := by
        by_contra hlt
        rcases h.covered k name hk (by omega) hname with hx | ⟨hx, -⟩
        · exact hn hx
        · omega
      obtain ⟨m, hm, hc⟩ := h.near a ha
      exact ⟨m, by omega, hc⟩
    now_chain := fun a ha => h.now_chain a (.tail _ ha)
    next_chain := List.forall_mem_append.mpr
      ⟨h.next_chain, fun b hb => hchain.through ((calls b).mp hb)⟩
    covered := by
      intro m a hc hm ha
      rcases h.covered m a hc hm ha with hx | ⟨hmn, hx⟩
      · exact .inl (List.mem_append_left _ hx)
      · rcases List.mem_cons.mp hx with rfl | hx
        · exact .inl (List.mem_append_right _ (.head _))
        · exact .inr ⟨hmn, hx⟩
    closed := by
      intro a ha b hab hb
      rcases List.mem_append.mp ha with ha | ha
      · rcases h.closed a ha b hab hb with hx | hx | hx
        · exact .inl (List.mem_append_left _ hx)
        · rcases List.mem_cons.mp hx with rfl | hx
          · exact .inl (List.mem_append_right _ (.head _))
          · exact .inr (.inl hx)
        · exact .inr (.inr (List.mem_append_left _ hx))
      · rw [List.mem_singleton.mp ha] at hab
        exact .inr (.inr (List.mem_append_right _ ((calls b).mpr hab))) }

/-- The first name of the queue belongs to the current level, or else starts the next one. -/
theorem exists_head (h : r.Frontier code n reached now next) (hq : name :: queue = now ++ next) :
    ∃ n now next, r.Frontier code n reached (name :: now) next ∧ queue = now ++ next := by
  cases now with
  | nil =>
    rw [List.nil_append] at hq
    subst hq
    exact ⟨n + 1, queue, [], h.advance, (List.append_nil queue).symm⟩
  | cons a now =>
    obtain ⟨rfl, rfl⟩ := List.cons_eq_cons.mp hq
    exact ⟨n, now, next, h, rfl⟩

/-- The visits end with an empty queue. -/
theorem run (h : r.Frontier code n reached now next) (hq : queue = now ++ next) :
    ∃ n, r.Frontier code n (r.reach reached queue) [] [] := by
  fun_induction reach r reached queue generalizing n now next with
  | case1 reached =>
    obtain ⟨rfl, rfl⟩ := List.append_eq_nil_iff.mp hq.symm
    exact ⟨n, h⟩
  | case2 reached name queue hs ih =>
    obtain ⟨n, now, next, h, hq⟩ := h.exists_head hq
    exact ih (h.skip fun _ => hs) hq
  | case3 reached name queue hs hf ih =>
    obtain ⟨n, now, next, h, hq⟩ := h.exists_head hq
    refine ih (h.skip fun hn => ?_) hq
    rw [contains, hf] at hn
    cases hn
  | case4 reached name queue hs f hf ih =>
    obtain ⟨n, now, next, h, rfl⟩ := h.exists_head hq
    exact ih (h.visit hs hf) (List.append_assoc now next f.callees)

end Frontier

theorem CallChain.mem_reachableFrom (h : r.CallChain code n name) (hn : r.contains name = true) :
    name ∈ r.reachableFrom code := by
  induction h with
  | direct hi h => exact callees_subset_reachableFrom hi (Instruction.mem_callNames_iff.mpr h) hn
  | through _ hab ih => exact (invokes_iff_calls.mp hab).mem_reachableFrom (ih hab.contains) hn

/-- What a sequence reaches are the registered functions at the end of a chain of calls, each once,
the nearer before the farther. -/
theorem reachableFrom_breadthFirst (r : Registry) (code : List Instruction) :
    (r.reachableFrom code).Nodup ∧
    (∀ name, name ∈ r.reachableFrom code ↔
      (∃ f, r.get? name = some f) ∧ ∃ n, r.CallChain code n name) ∧
    ∃ distance : String → Nat,
      (∀ name ∈ r.reachableFrom code, r.Distance code name (distance name)) ∧
      ((r.reachableFrom code).map distance).Pairwise (· ≤ ·) := by
  obtain ⟨n, h⟩ := (Frontier.start r code).run (List.append_nil _).symm
  have hdistance : ∀ name ∈ r.reachableFrom code, ∃ d, r.Distance code name d := by
    intro name hn
    obtain ⟨m, -, hm⟩ := h.near name hn
    exact hm.exists_distance
  choose! distance hd using hdistance
  refine ⟨h.nodup, fun name => ⟨fun hn => ?_, ?_⟩, distance, hd, ?_⟩
  · obtain ⟨m, -, hm⟩ := h.near name hn
    exact ⟨Option.isSome_iff_exists.mp (h.registered name hn), m, hm⟩
  · rintro ⟨hf, m, hm⟩
    exact hm.mem_reachableFrom (Option.isSome_iff_exists.mpr hf)
  · refine List.pairwise_map.mpr (h.ordered.imp_of_mem fun ha hb hab => ?_)
    obtain ⟨m, hle, hm⟩ := hab _ (hd _ hb).chain
    exact Nat.le_trans ((hd _ ha).least m hm) hle

end SLanguage.Registry
