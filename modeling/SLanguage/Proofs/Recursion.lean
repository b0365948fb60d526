import Mathlib.Data.List.Chain
import SLanguage.Proofs.Transparency

/-!
# Three searches for a cycle of calls

`Registry.findRecursion` looks for a cycle among all functions; the cost and the degree of a name
meet one on their way down. All three keep the chain of callers on the way to a name, in which each
function calls the next and none stands twice (`CallPath`), and close it where a name comes back. So
what they report is a simple cycle of the call graph (`SimpleCycle`), and they agree on whether there
is one.
-/

namespace SLanguage

open Relation

/-- A fold that fails fails at one entry, after a fold of the entries before it that does not. -/
theorem exists_of_foldlM_error {ε β γ : Type} {step : β → γ → Except ε β} {xs : List γ} {b : β}
    {e : ε} (h : xs.foldlM step b = .error e) :
    ∃ before x after b', xs = before ++ x :: after ∧ before.foldlM step b = .ok b' ∧
      step b' x = .error e := by
  induction xs generalizing b with
  | nil => cases h
  | cons x xs ih =>
    rw [List.foldlM_cons] at h
    cases hx : step b x with
    | error e' =>
      rw [hx] at h
      cases h
      exact ⟨[], x, xs, b, rfl, rfl, hx⟩
    | ok b1 =>
      rw [hx] at h
      obtain ⟨before, y, after, b', rfl, hbefore, hstep⟩ := ih h
      refine ⟨x :: before, y, after, b', rfl, ?_, hstep⟩
      rw [List.foldlM_cons, hx]
      exact hbefore

namespace Registry

variable {r : Registry} {path chain : List String} {name : String}

/-! ## Simple cycles -/

/-- A chain of calls that comes back to its first function and passes every other one once. -/
structure SimpleCycle (r : Registry) (chain : List String) : Prop where
  long : 2 ≤ chain.length
  closed : chain.head? = chain.getLast?
  nodup : chain.dropLast.Nodup
  registered : ∀ name ∈ chain, r.contains name = true
  calls : chain.IsChain r.Calls

theorem SimpleCycle.exists_cons (h : r.SimpleCycle chain) :
    ∃ a b rest, chain = a :: b :: rest ∧ r.Calls a b ∧ (b :: rest).IsChain r.Calls ∧
      (b :: rest).getLast (List.cons_ne_nil _ _) = a := by
  obtain ⟨hlong, hclosed, -, -, hcalls⟩ := h
  obtain ⟨a, tail, rfl⟩ := List.exists_cons_of_length_pos (l := chain) (by omega)
  obtain ⟨b, rest, rfl⟩ := List.exists_cons_of_length_pos (l := tail) (Nat.le_of_succ_le_succ hlong)
  obtain ⟨hab, hrest⟩ := List.isChain_cons_cons.mp hcalls
  rw [List.head?_cons, List.getLast?_cons_cons,
    List.getLast?_eq_some_getLast (List.cons_ne_nil b rest)] at hclosed
  exact ⟨a, b, rest, rfl, hab, hrest, (Option.some.inj hclosed).symm⟩

/-- Every function on a cycle comes back to itself. -/
theorem SimpleCycle.exists_transGen (h : r.SimpleCycle chain) :
    ∃ a, TransGen r.Calls a a ∧ ∀ name ∈ chain, ReflTransGen r.Calls name a := by
  obtain ⟨a, b, rest, rfl, hab, hchain, hlast⟩ := h.exists_cons
  have hreach : ∀ name ∈ b :: rest, ReflTransGen r.Calls name a :=
    hchain.backwards_induction (ReflTransGen r.Calls · a) _ (fun _ _ hxy hy => .head hxy hy)
      fun _ => by rw [hlast]
  refine ⟨a, .head' hab (hreach b (.head _)), List.forall_mem_cons.mpr ⟨.refl, hreach⟩⟩

theorem SimpleCycle.not_grounded (h : r.SimpleCycle chain) (hn : name ∈ chain) :
    ¬ r.Grounded name := by
  obtain ⟨a, ha, hreach⟩ := h.exists_transGen
  exact fun hg => (hg.reach (hreach name hn)).not_recursive ha

/-! ## The callers on the way to a name -/

/-- Each function of the path calls the next, the last one calls `name`, and none stands twice. -/
structure CallPath (r : Registry) (path : List String) (name : String) : Prop where
  calls : (path ++ [name]).IsChain r.Calls
  nodup : path.Nodup

theorem callPath_nil (r : Registry) (name : String) : r.CallPath [] name :=
  ⟨.singleton name, .nil⟩

theorem CallPath.call (h : r.CallPath path name) (hn : name ∉ path) {g : String}
    (hg : r.Calls name g) : r.CallPath (path ++ [name]) g := by
  refine ⟨?_, List.nodup_append.mpr ⟨h.nodup, List.nodup_singleton name, ?_⟩⟩
  · exact h.calls.append_overlap (List.isChain_pair.mpr hg) (List.cons_ne_nil _ _)
  · intro a ha b hb e
    rw [List.mem_singleton.mp hb] at e
    exact hn (e ▸ ha)

theorem closeChain_eq (h : name ∈ path) :
    ∃ before rest, path = before ++ name :: rest ∧
      closeChain path name = name :: rest ++ [name] := by
  induction path with
  | nil => cases h
  | cons a path ih =>
    by_cases ha : a = name
    · subst ha
      exact ⟨[], path, rfl, by rw [closeChain, List.dropWhile_cons_of_neg (by simp)]⟩
    · obtain ⟨before, rest, rfl, he⟩ := ih ((List.mem_cons.mp h).resolve_left (Ne.symm ha))
      refine ⟨a :: before, rest, rfl, ?_⟩
      rw [← he, closeChain, closeChain,
        List.dropWhile_cons_of_pos (by simpa using ha)]

theorem contains_of_isChain (h : (path ++ [name]).IsChain r.Calls) :
    ∀ a ∈ path, r.contains a = true := by
  induction path with
  | nil => exact List.forall_mem_nil _
  | cons a path ih =>
    have hcall : ∃ b, r.Calls a b := by
      cases path with
      | nil => exact ⟨name, (List.isChain_cons_cons.mp h).1⟩
      | cons b path => exact ⟨b, (List.isChain_cons_cons.mp h).1⟩
    obtain ⟨b, f, hf, -⟩ := hcall
    refine List.forall_mem_cons.mpr ⟨?_, ih h.tail⟩
    rw [contains, hf]
    rfl

/-- Where a name comes back, the path closes to a simple cycle. -/
theorem CallPath.simpleCycle (h : r.CallPath path name) (hn : name ∈ path) :
    r.SimpleCycle (closeChain path name) := by
  obtain ⟨before, rest, rfl, he⟩ := closeChain_eq hn
  have hcalls : (name :: rest ++ [name]).IsChain r.Calls := by
    have := h.calls
    rw [List.append_assoc] at this
    exact this.right_of_append
  have hreg := contains_of_isChain hcalls
  rw [he]
  refine ⟨?_, ?_, ?_, List.forall_mem_append.mpr ⟨hreg, ?_⟩, hcalls⟩
  · rw [List.length_append, List.length_cons, List.length_singleton]
    omega
  · rw [List.getLast?_concat]
    rfl
  · rw [List.dropLast_concat]
    exact (List.nodup_append.mp h.nodup).2.1
  · exact List.forall_mem_singleton.mpr (hreg name (.head _))

/-! ## The search among all functions -/

theorem search_simpleCycle (hp : r.CallPath path name) {finished : List String}
    (h : r.search path finished name = .error chain) : r.SimpleCycle chain := by
  induction hm : r.outside path using Nat.strongRecOn generalizing path finished name with
  | ind m ih =>
    rw [search] at h
    split at h
    · next hn => cases h; exact hp.simpleCycle hn
    next hn =>
    split at h
    · cases h
    split at h
    · cases h
    next f hf =>
    cases hs : f.callees.foldlM (r.search (path ++ [name])) finished with
    | ok finished' => rw [hs] at h; cases h
    | error chain' =>
      rw [hs] at h
      cases h
      obtain ⟨before, g, after, finished', hcallees, -, hsearch⟩ := exists_of_foldlM_error hs
      have hg : g ∈ f.callees := by rw [hcallees]; simp
      have hlt := outside_append_lt (mem_names_of_get? hf) hn
      exact ih _ (hm ▸ hlt) (hp.call hn ⟨f, hf, hg⟩) hsearch rfl

theorem findRecursion_simpleCycle (h : r.findRecursion = some chain) : r.SimpleCycle chain := by
  unfold findRecursion at h
  split at h
  · next chain' hs =>
    cases h
    obtain ⟨-, name, -, finished, -, -, hsearch⟩ := exists_of_foldlM_error hs
    exact search_simpleCycle (r.callPath_nil name) hsearch
  · cases h

theorem findRecursion_eq_none_iff :
    r.findRecursion = none ↔ ∀ name, ¬ TransGen r.Calls name name := by
  refine ⟨not_recursive_of_findRecursion, fun h => ?_⟩
  cases hr : r.findRecursion with
  | none => rfl
  | some chain =>
    obtain ⟨a, ha, -⟩ := (findRecursion_simpleCycle hr).exists_transGen
    exact absurd ha (h a)

/-! ## The search on the way down -/

/-- A chain in the fault is a simple cycle. -/
def Genuine (r : Registry) (e : Fault) : Prop :=
  ∀ chain, e = .recursiveFunction chain → r.SimpleCycle chain

theorem explains_genuine (r : Registry) : r.Explains r.CallPath fun _ _ e => r.Genuine e where
  calls h hn hg := h.call hn hg
  recursion h hn _ := by
    rintro _ ⟨⟩
    exact h.simpleCycle hn
  unknown _ _ := by rintro _ ⟨⟩
  caller _ _ he _ := he

theorem analyse_genuine {α : Type} {analysis : BodyAnalysis α}
    {value : (String → α) → Function → α} {val : String → α} (hA : analysis.Follows value)
    (hval : r.Solves value val) (site : Site) (name : String) :
    MemoM.Ensures (r.Holds val) (fun a => r.Grounded name ∧ a = val name) r.Genuine
      (r.analyse analysis [] site name) :=
  analyse_ensures_of hA hval r.explains_genuine [] site name (r.callPath_nil name)

end Registry

/-! ## Queries -/

variable {α β γ σ : Type} {I : Memo α → Prop} {err : Fault → Prop} {known : String → Prop}

theorem MemoM.ensures_mapM {seen : γ → Prop} {step : γ → MemoM α β} {xs : List γ}
    (h : ∀ x ∈ xs, Ensures I (fun _ => seen x) err (step x)) :
    Ensures I (fun _ => ∀ x ∈ xs, seen x) err (xs.mapM step) := by
  induction xs with
  | nil => exact ensures_pure (List.forall_mem_nil _)
  | cons x xs ih =>
    rw [List.mapM_cons]
    refine (h x (.head _)).bind fun b hb => ?_
    refine (ih fun y hy => h y (.tail _ hy)).bind fun bs hbs => ?_
    exact ensures_pure (List.forall_mem_cons.mpr ⟨hb, hbs⟩)

namespace Query

open MemoM

/-- The names that a query asks about. -/
def names : Query → List String
  | instruction _ i => i.callNames
  | function _ name => [name]
  | sequence _ code => calleesOf code

theorem ensures_cost {I : Memo Cycles → Prop} {val : String → Cycles}
    {callee : Site → String → MemoM Cycles Cycles}
    (h : ∀ site n, Ensures I (fun c => known n ∧ c = val n) err (callee site n)) (q : Query) :
    Ensures I (fun _ => ∀ n ∈ q.names, known n) err (q.cost callee) := by
  cases q with
  | instruction site i =>
    refine (Cost.ensures_ofInstruction fun n _ => h site n).bind fun c hc => ?_
    exact ensures_pure hc.1
  | function site name =>
    refine (h site name).bind fun c hc => ?_
    exact ensures_pure (List.forall_mem_singleton.mpr hc.1)
  | sequence scope code =>
    have hmap : Ensures I (fun _ => ∀ x ∈ code.zipIdx 1, ∀ n ∈ x.1.callNames, known n) err
        (Cost.ofSequence callee scope code) := ensures_mapM fun x _ =>
      (Cost.ensures_ofInstruction fun n _ => h _ n).mono (fun _ hc => hc.1) fun _ he => he
    refine hmap.mono (fun _ hx n hn => ?_) fun _ he => he
    obtain ⟨i, hi, hn⟩ := mem_calleesOf.mp hn
    obtain ⟨k, hk⟩ := List.getElem?_of_mem hi
    exact hx (i, 1 + k) (List.mk_add_mem_zipIdx_iff_getElem?.mpr hk) n hn

theorem ensures_degree {I : Memo Nat → Prop} {val : String → Nat}
    {callee : Site → String → MemoM Nat Nat}
    (h : ∀ site n, Ensures I (fun d => known n ∧ d = val n) err (callee site n)) (q : Query) :
    Ensures I (fun _ => ∀ n ∈ q.names, known n) err (q.degree callee) := by
  cases q with
  | instruction site i =>
    exact (Degree.ensures_ofInstruction fun n _ => h site n).mono (fun _ hd => hd.1) fun _ he => he
  | function site name =>
    exact (h site name).mono (fun _ hd => List.forall_mem_singleton.mpr hd.1) fun _ he => he
  | sequence scope code =>
    exact (Degree.ensures_ofSequence fun site n _ => h site n).mono (fun _ hd => hd.1)
      fun _ he => he

end Query

namespace Registry

variable {r : Registry}

/-- What the answers to queries made one after the other say of cycles: a chain that is reported is
a simple cycle, none is reported where the search among all functions finds none, and no name on the
cycle that it finds has an answer. -/
structure DetectsCycles (r : Registry) (ask : Query → EStateM Fault σ β) (s : σ) : Prop where
  genuine : ∀ queries, ∀ x ∈ Query.replies ask s queries, ∀ chain,
    x.1 = .error (.recursiveFunction chain) → r.SimpleCycle chain
  silent : r.findRecursion = none → ∀ queries, ∀ x ∈ Query.replies ask s queries, ∀ chain,
    x.1 ≠ .error (.recursiveFunction chain)
  refuses : ∀ chain, r.findRecursion = some chain → ∀ name ∈ chain,
    ∀ (site : Site) (queries : List Query) (k : Nat), queries[k]? = some (.function site name) →
    ∃ e s', (Query.replies ask s queries)[k]? = some (.error e, s')

/-- Queries that are all answered as by `ask'` with nothing known. -/
theorem detectsCycles_of_fresh {ask : Query → EStateM Fault σ β} {s : σ}
    {ask' : Query → MemoM α β} {val : String → α}
    (h : ∀ queries, (Query.replies ask s queries).map (·.1) = queries.map fun q => (ask' q).fresh)
    (hask : ∀ q, MemoM.Ensures (r.Holds val) (fun _ => ∀ n ∈ q.names, r.Grounded n) r.Genuine
      (ask' q)) : r.DetectsCycles ask s := by
  have genuine : ∀ queries, ∀ x ∈ Query.replies ask s queries, ∀ chain,
      x.1 = .error (.recursiveFunction chain) → r.SimpleCycle chain := by
    intro queries x hx chain hchain
    have hm : x.1 ∈ queries.map fun q => (ask' q).fresh := h queries ▸ List.mem_map.mpr ⟨x, hx, rfl⟩
    obtain ⟨q, -, hq⟩ := List.mem_map.mp hm
    exact (hask q).fresh_error (r.holds_empty val) (hq.trans hchain) chain rfl
  refine ⟨genuine, fun hnone queries x hx chain hchain => ?_,
    fun chain hchain name hname site queries k hk => ?_⟩
  · obtain ⟨a, ha, -⟩ := (genuine queries x hx chain hchain).exists_transGen
    exact findRecursion_eq_none_iff.mp hnone a ha
  · have hreply : ((Query.replies ask s queries).map (·.1))[k]? =
        some (ask' (.function site name)).fresh := by
      rw [h, List.getElem?_map, hk]
      rfl
    rw [List.getElem?_map] at hreply
    obtain ⟨⟨reply, s'⟩, hx, rfl⟩ := Option.map_eq_some_iff.mp hreply
    cases hf : (ask' (.function site name)).fresh with
    | error e => exact ⟨e, s', by rw [hx, hf]⟩
    | ok b =>
      have hg := (hask _).fresh_ok (r.holds_empty val) hf name (.head _)
      exact absurd hg ((findRecursion_simpleCycle hchain).not_grounded hname)

theorem detectsCycles_cost (r : Registry) :
    r.DetectsCycles (Query.cost r.bodyCost) ∅ ∧
      ∀ alarm, r.DetectsCycles (Query.cost (r.pursue Cost.ofBody alarm)) {} := by
  obtain ⟨val, hval⟩ := r.exists_solves Cost.plainBody_local
  have ht : r.Transparent Cost.ofBody @Query.cost :=
    r.transparent_of_follows Cost.ofBody_follows Cost.plainBody_local Cost.ofBody_uniform
      Query.mirrors_cost
  have hask := Query.ensures_cost fun site n => analyse_genuine Cost.ofBody_follows hval site n
  exact ⟨detectsCycles_of_fresh ht.memo hask,
    fun alarm => detectsCycles_of_fresh (ht.ledger alarm) hask⟩

theorem detectsCycles_degree (r : Registry) :
    r.DetectsCycles (Query.degree r.functionDegree) ∅ ∧
      ∀ alarm, r.DetectsCycles (Query.degree (r.pursue Degree.ofBody alarm)) {} := by
  obtain ⟨val, hval⟩ := r.exists_solves Degree.plainBody_local
  have ht : r.Transparent Degree.ofBody @Query.degree :=
    r.transparent_of_follows Degree.ofBody_follows Degree.plainBody_local Degree.ofBody_uniform
      Query.mirrors_degree
  have hask := Query.ensures_degree fun site n => analyse_genuine Degree.ofBody_follows hval site n
  exact ⟨detectsCycles_of_fresh ht.memo hask,
    fun alarm => detectsCycles_of_fresh (ht.ledger alarm) hask⟩

/-- The searches for a cycle are right and agree. The one among all functions finds nothing exactly
if no chain of calls comes back, and otherwise a simple cycle; the costs and the degrees, asked one
after the other with the memo or with the whole ledger kept, detect the same cycles. -/
theorem recursion_detected (r : Registry) :
    (r.findRecursion = none ↔ ∀ name, ¬ TransGen r.Calls name name) ∧
    (∀ chain, r.findRecursion = some chain → r.SimpleCycle chain) ∧
    (r.DetectsCycles (Query.cost r.bodyCost) ∅ ∧
      ∀ alarm, r.DetectsCycles (Query.cost (r.pursue Cost.ofBody alarm)) {}) ∧
    (r.DetectsCycles (Query.degree r.functionDegree) ∅ ∧
      ∀ alarm, r.DetectsCycles (Query.degree (r.pursue Degree.ofBody alarm)) {}) :=
  ⟨findRecursion_eq_none_iff, fun _ => findRecursion_simpleCycle, r.detectsCycles_cost,
    r.detectsCycles_degree⟩

end Registry

end SLanguage
