import SLanguage.Proofs.Cost
import SLanguage.Proofs.Degree
import SLanguage.Proofs.Mirrors

/-!
# Remembering changes no answer

What is known of bodies is kept from query to query, also from a query that failed halfway. A memo
that holds only right values (`Registry.Holds`) answers as an empty one does, because a body gets
into it only when nothing that it reaches is unknown or recursive (`mirrors_analyse`).

`Registry.pursue` keeps the bodies in progress as state too, in a ledger: a body is entered before
it is analysed and left afterwards, also when it fails. It answers as `Registry.analyse` does, which
hands the chain down, and nothing is in progress after a query.
-/

namespace SLanguage

open Relation

variable {σ τ α β : Type}

/-! ## The ledger -/

/-- The bodies that are known, and those in progress, the outermost first. -/
structure Ledger (α : Type) where
  known : Memo α := ∅
  inProgress : List String := []

namespace Ledger

def enter (name : String) (l : Ledger α) : Ledger α :=
  { l with inProgress := l.inProgress ++ [name] }

def leave (l : Ledger α) : Ledger α :=
  { l with inProgress := l.inProgress.dropLast }

def learn (name : String) (a : α) (l : Ledger α) : Ledger α :=
  { l with known := l.known.insert name a }

/-- Analyses a body while its name is in progress, and learns the answer. -/
def during (name : String) (body : EStateM Fault (Ledger α) α) : EStateM Fault (Ledger α) α := do
  modify (enter name)
  let a ← try body catch e =>
    modify leave
    throw e
  modify fun l => l.leave.learn name a
  return a

/-- The ledger has the memo and the chain. -/
def Shows (chain : List String) (l : Ledger α) (m : Memo α) : Prop :=
  l.known = m ∧ l.inProgress = chain

variable {chain : List String} {name : String} {l : Ledger α} {m : Memo α}

theorem Shows.enter (h : Shows chain l m) : Shows (chain ++ [name]) (l.enter name) m :=
  ⟨h.1, by rw [Ledger.enter, h.2]⟩

theorem Shows.leave (h : Shows (chain ++ [name]) l m) : Shows chain l.leave m :=
  ⟨h.1, by rw [Ledger.leave, h.2, List.dropLast_concat]⟩

theorem Shows.learn (h : Shows chain l m) (a : α) :
    Shows chain (l.learn name a) (m.insert name a) :=
  ⟨by rw [Ledger.learn, h.1], h.2⟩

theorem mirrors_during {x : EStateM Fault (Ledger α) α} {y : MemoM α α}
    (h : Mirrors (Shows (chain ++ [name])) x y) :
    Mirrors (Shows chain) (during name x)
      (do let a ← y
          modify (·.insert name a)
          return a) := by
  intro l m hl
  have hb : SameResult (Shows (chain ++ [name])) (x (l.enter name)) (y m) := h _ m hl.enter
  simp only [EStateM.run, during, bind, EStateM.bind, tryCatch, tryCatchThe,
    MonadExceptOf.tryCatch, EStateM.tryCatch, modify, modifyGet, MonadStateOf.modifyGet]
  delta EStateM.modifyGet
  dsimp only
  generalize x (l.enter name) = a at hb ⊢
  generalize y m = b at hb ⊢
  cases hb with
  | ok a hb => exact .ok a (hb.leave.learn a)
  | error e hb => exact .error e hb.leave

end Ledger

namespace Registry

/-- Analyses the function of a name with the bodies in progress kept in the ledger, and gives the
alarm where more than `depth` bodies are in progress. -/
def pursueTo (r : Registry) (analysis : BodyAnalysis α) (alarm : Fault) :
    Nat → Site → String → EStateM Fault (Ledger α) α
  | 0, _, _ => throw alarm
  | depth + 1, site, name => do
    let l ← get
    match l.known[name]? with
    | some a => return a
    | none =>
      if name ∈ l.inProgress then throw (.recursiveFunction (closeChain l.inProgress name))
      else
        match r.get? name with
        | none => throw (.unknownFunction name site)
        | some f => Ledger.during name (analysis (r.pursueTo analysis alarm depth) f)

/-- A chain without repetition has no more bodies than the registry: the alarm is never heard. -/
def pursue (r : Registry) (analysis : BodyAnalysis α) (alarm : Fault) :
    Site → String → EStateM Fault (Ledger α) α :=
  r.pursueTo analysis alarm (r.size + 1)

variable {r : Registry} {analysis : BodyAnalysis α} {value : (String → α) → Function → α}
  {val : String → α} {chain : List String} {name : String}

theorem mirrors_pursueTo (hU : analysis.Uniform) (alarm : Fault) {depth : Nat}
    (hd : r.outside chain < depth) (site : Site) (name : String) :
    Mirrors (Ledger.Shows chain) (r.pursueTo analysis alarm depth site name)
      (r.analyse analysis chain site name) := by
  induction depth generalizing chain site name with
  | zero => omega
  | succ depth ih =>
    rw [analyse, pursueTo]
    refine mirrors_get_bind fun l m h => ?_
    obtain ⟨rfl, rfl⟩ := h
    cases l.known[name]? with
    | some a => exact mirrors_pure a
    | none =>
      by_cases hc : name ∈ l.inProgress
      · simp only [if_pos hc, dif_pos hc]
        exact mirrors_throw _
      · simp only [if_neg hc, dif_neg hc]
        cases hf : r.get? name with
        | none => exact mirrors_throw _
        | some f =>
          refine Ledger.mirrors_during (hU _ _ _ f _ _ fun s g _ => ih ?_ s g)
          have := outside_append_lt (mem_names_of_get? hf) hc
          omega

theorem mirrors_pursue (hU : analysis.Uniform) (alarm : Fault) (site : Site) (name : String) :
    Mirrors (Ledger.Shows []) (r.pursue analysis alarm site name)
      (r.analyse analysis [] site name) := by
  have h : r.outside [] ≤ r.names.length := List.countP_le_length
  rw [names, Std.TreeMap.length_keys] at h
  exact mirrors_pursueTo hU alarm (Nat.lt_succ_of_le h) site name

/-! ## Memos with right values -/

/-- Two memos that hold only right values. -/
def BothHold (r : Registry) (val : String → α) (m m' : Memo α) : Prop :=
  r.Holds val m ∧ r.Holds val m'

theorem analyse_of_grounded (hA : analysis.Follows value) (hval : r.Solves value val)
    (hchain : ∀ c ∈ chain, TransGen r.Calls c name) (hg : r.Grounded name) (site : Site)
    {m : Memo α} (hm : r.Holds val m) :
    ∃ m', (r.analyse analysis chain site name).run m = .ok (val name) m' ∧ r.Holds val m' := by
  have h := analyse_ensures hA hval chain site name hchain m hm
  split at h
  · next b m' e =>
    obtain ⟨hm', -, rfl⟩ := h
    exact ⟨m', e, hm'⟩
  · exact absurd hg h.2.not_grounded

theorem Holds.get?_of_not_grounded {m : Memo α} (h : r.Holds val m) (hg : ¬ r.Grounded name) :
    m[name]? = none := by
  cases ha : m[name]? with
  | none => rfl
  | some a => exact absurd (h name a ha).1 hg

theorem mirrors_analyse (hA : analysis.Follows value) (hU : analysis.Uniform)
    (hval : r.Solves value val) (hchain : ∀ c ∈ chain, TransGen r.Calls c name) (site : Site) :
    Mirrors (r.BothHold val) (r.analyse analysis chain site name)
      (r.analyse analysis chain site name) := by
  induction hk : r.outside chain using Nat.strongRecOn generalizing chain site name with
  | ind k ih =>
  by_cases hg : r.Grounded name
  · intro m m' h
    obtain ⟨m₁, e, hm₁⟩ := analyse_of_grounded hA hval hchain hg site h.1
    obtain ⟨m₂, e', hm₂⟩ := analyse_of_grounded hA hval hchain hg site h.2
    rw [e, e']
    exact .ok (val name) ⟨hm₁, hm₂⟩
  -- nothing wrong is in the memos, so both sides look at the body
  rw [analyse]
  refine mirrors_get_bind fun m m' h => ?_
  rw [h.1.get?_of_not_grounded hg, h.2.get?_of_not_grounded hg]
  by_cases hc : name ∈ chain
  · simp only [dif_pos hc]
    exact mirrors_throw _
  simp only [dif_neg hc]
  cases hf : r.get? name with
  | none => exact mirrors_throw _
  | some f =>
    have hsub : ∀ s g, CalledAt f.scope f.body s g →
        ∀ c ∈ chain ++ [name], TransGen r.Calls c g := fun s g hs =>
      Calls.extends_chain ⟨f, hf, hs.mem_calleesOf⟩ hchain
    have hlt := outside_append_lt (mem_names_of_get? hf) hc
    refine (hU _ _ _ f _ _ fun s g hs => ih _ (hk ▸ hlt) (hsub s g hs) s rfl).bind_of_answers ?_
    -- an answer would ground the name
    intro a ha
    obtain ⟨m, m', m₁, hm, e⟩ := ha
    have h := hA f _ (r.Holds val) r.Grounded (fun _ => True) val
      (fun s g hs => (analyse_ensures hA hval _ s g (hsub s g hs)).mono (fun _ h => h)
        fun _ _ => trivial) m hm.1
    rw [e] at h
    exact absurd (.intro hf h.2.1) hg

end Registry

/-! ## Queries -/

/-- What an analysis is asked about. -/
inductive Query where
  | instruction (site : Site) (i : Instruction)
  | function (site : Site) (name : String)
  | sequence (scope : Scope) (code : List Instruction)

namespace Query

/-- The costs asked for: of each instruction of a sequence, else one. -/
def cost (callee : Site → String → EStateM Fault σ Cycles) : Query → EStateM Fault σ (List Cycles)
  | instruction site i => return [← Cost.ofInstruction callee site i]
  | function site name => return [← callee site name]
  | sequence scope code => Cost.ofSequence callee scope code

def degree (callee : Site → String → EStateM Fault σ Nat) : Query → EStateM Fault σ Nat
  | instruction site i => Degree.ofInstruction callee site i
  | function site name => callee site name
  | sequence scope code => Degree.ofSequence callee scope code

/-- The answers to queries made one after the other on one state, each with the state it leaves. -/
def replies (ask : Query → EStateM Fault σ β) : σ → List Query → List (Except Fault β × σ)
  | _, [] => []
  | s, q :: rest =>
    match (ask q).run s with
    | .ok b s' => (.ok b, s') :: replies ask s' rest
    | .error e s' => (.error e, s') :: replies ask s' rest

variable {R : σ → τ → Prop}

theorem mirrors_cost {callee : Site → String → EStateM Fault σ Cycles}
    {callee' : Site → String → EStateM Fault τ Cycles}
    (h : ∀ site name, Mirrors R (callee site name) (callee' site name)) (q : Query) :
    Mirrors R (q.cost callee) (q.cost callee') := by
  cases q with
  | instruction site i =>
    exact (Cost.mirrors_ofInstruction fun n _ => h site n).bind fun c => mirrors_pure [c]
  | function site name => exact (h site name).bind fun c => mirrors_pure [c]
  | sequence scope code => exact Cost.mirrors_ofSequence fun site n _ => h site n

theorem mirrors_degree {callee : Site → String → EStateM Fault σ Nat}
    {callee' : Site → String → EStateM Fault τ Nat}
    (h : ∀ site name, Mirrors R (callee site name) (callee' site name)) (q : Query) :
    Mirrors R (q.degree callee) (q.degree callee') := by
  cases q with
  | instruction site i => exact Degree.mirrors_ofInstruction fun n _ => h site n
  | function site name => exact h site name
  | sequence scope code => exact Degree.mirrors_ofSequence fun site n _ => h site n

/-- Queries that each mirror a query to an empty memo are all answered as by one. -/
theorem replies_of_mirrors {R : σ → Memo α → Prop} {ask : Query → EStateM Fault σ β}
    {ask' : Query → MemoM α β} (hR : ∀ s m, R s m → R s ∅) (h : ∀ q, Mirrors R (ask q) (ask' q))
    {s : σ} (hs : R s ∅) (queries : List Query) :
    (replies ask s queries).map (·.1) = queries.map (fun q => (ask' q).fresh) ∧
      ∀ x ∈ replies ask s queries, R x.2 ∅ := by
  induction queries generalizing s with
  | nil => exact ⟨rfl, List.forall_mem_nil _⟩
  | cons q rest ih =>
    have hq := h q s ∅ hs
    rw [replies, List.map_cons, MemoM.fresh]
    generalize (ask q).run s = a at hq ⊢
    generalize (ask' q).run ∅ = b at hq ⊢
    cases hq with
    | ok b hq =>
      obtain ⟨he, hrest⟩ := ih (hR _ _ hq)
      exact ⟨congrArg (Except.ok b :: ·) he, List.forall_mem_cons.mpr ⟨hR _ _ hq, hrest⟩⟩
    | error e hq =>
      obtain ⟨he, hrest⟩ := ih (hR _ _ hq)
      exact ⟨congrArg (Except.error e :: ·) he, List.forall_mem_cons.mpr ⟨hR _ _ hq, hrest⟩⟩

end Query

/-- How an analysis is asked, given how to analyse a name that is called at a site. -/
abbrev Asking (α β : Type) :=
  ⦃σ : Type⦄ → (Site → String → EStateM Fault σ α) → Query → EStateM Fault σ β

namespace Registry

/-- Queries made one after the other on one memo or one ledger are each answered as the query alone
with nothing known, and nothing is in progress after any of them. -/
structure Transparent (r : Registry) (analysis : BodyAnalysis α) (ask : Asking α β) : Prop where
  memo : ∀ queries, (Query.replies (ask (r.analyse analysis [])) ∅ queries).map (·.1) =
    queries.map fun q => MemoM.fresh (ask (r.analyse analysis []) q)
  ledger : ∀ alarm queries, (Query.replies (ask (r.pursue analysis alarm)) {} queries).map (·.1) =
    queries.map fun q => MemoM.fresh (ask (r.analyse analysis []) q)
  idle : ∀ alarm queries, ∀ x ∈ Query.replies (ask (r.pursue analysis alarm)) {} queries,
    x.2.inProgress = []

theorem transparent_of_follows [Inhabited α] {analysis : BodyAnalysis α} {ask : Asking α β}
    {value : (String → α) → Function → α} (r : Registry) (hA : analysis.Follows value)
    (hl : Local value) (hU : analysis.Uniform)
    (hask : ∀ {σ τ : Type} {R : σ → τ → Prop} {callee : Site → String → EStateM Fault σ α}
      {callee' : Site → String → EStateM Fault τ α},
      (∀ site name, Mirrors R (callee site name) (callee' site name)) →
      ∀ q, Mirrors R (ask callee q) (ask callee' q)) :
    r.Transparent analysis ask := by
  obtain ⟨val, hval⟩ := r.exists_solves hl
  have hmemo : ∀ site name, Mirrors (r.BothHold val) (r.analyse analysis [] site name)
      (r.analyse analysis [] site name) := fun site name =>
    mirrors_analyse hA hU hval (List.forall_mem_nil _) site
  have hempty := r.holds_empty val
  have hask' := fun alarm =>
    hask fun site name => (mirrors_pursue hU alarm site name).trans (hmemo site name)
  have hledger := fun alarm queries =>
    Query.replies_of_mirrors (fun l m h => h.imp fun known hk => ⟨hk.1, hk.2.1, hempty⟩)
      (hask' alarm) (s := {}) ⟨∅, ⟨rfl, rfl⟩, hempty, hempty⟩ queries
  refine ⟨fun queries => ?_, fun alarm queries => (hledger alarm queries).1, ?_⟩
  · exact (Query.replies_of_mirrors (fun _ _ h => ⟨h.1, hempty⟩) (hask hmemo)
      ⟨hempty, hempty⟩ queries).1
  · intro alarm queries x hx
    obtain ⟨known, hk, -⟩ := (hledger alarm queries).2 x hx
    exact hk.2

theorem memory_transparent (r : Registry) :
    r.Transparent Cost.ofBody @Query.cost ∧ r.Transparent Degree.ofBody @Query.degree :=
  ⟨r.transparent_of_follows Cost.ofBody_follows Cost.plainBody_local Cost.ofBody_uniform
      Query.mirrors_cost,
    r.transparent_of_follows Degree.ofBody_follows Degree.plainBody_local Degree.ofBody_uniform
      Query.mirrors_degree⟩

end Registry

end SLanguage
