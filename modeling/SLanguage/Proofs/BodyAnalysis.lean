import Mathlib.Tactic.Choose
import SLanguage.BodyAnalysis
import SLanguage.Proofs.CallGraph

/-!
# What an analysis of bodies computes

`MemoM.Ensures I ok err x`: from a memo with `I`, the computation `x` ends in a memo with `I`, with
an answer in `ok` or a fault in `err`. An analysis `Follows` a function `value` when it asks about
the names called in the body, each at its site, and answers `value` of what it was told. Then the
memoised walk over the call graph answers exactly on grounded names, whatever the memo already
holds, and each of its faults points at an unknown name or a recursion (`analyse_ensures`). What else
can be said of the faults is said of the chain of callers that leads to them (`Registry.Explains`).
-/

namespace SLanguage

open Relation

variable {α β γ : Type}

namespace MemoM

def Ensures (I : Memo α → Prop) (ok : β → Prop) (err : Fault → Prop) (x : MemoM α β) : Prop :=
  ∀ m, I m → match x.run m with
    | .ok b m' => I m' ∧ ok b
    | .error e m' => I m' ∧ err e

variable {I : Memo α → Prop} {err err' : Fault → Prop}

theorem ensures_pure {ok : β → Prop} {b : β} (h : ok b) : Ensures I ok err (pure b) :=
  fun _ hm => ⟨hm, h⟩

theorem ensures_throw {ok : β → Prop} {e : Fault} (h : err e) :
    Ensures I ok err (throw e : MemoM α β) :=
  fun _ hm => ⟨hm, h⟩

theorem Ensures.bind {P : β → Prop} {ok : γ → Prop} {x : MemoM α β} {f : β → MemoM α γ}
    (hx : Ensures I P err x) (hf : ∀ b, P b → Ensures I ok err (f b)) :
    Ensures I ok err (x >>= f) := by
  intro m hm
  have h := hx m hm
  change match EStateM.bind x f m with | .ok b m' => _ | .error e m' => _
  unfold EStateM.bind
  unfold EStateM.run at h
  split at h
  · next b m' e => rw [e]; exact hf b h.2 m' h.1
  · next e' m' e => rw [e]; exact h

theorem Ensures.mono {ok ok' : β → Prop} {x : MemoM α β} (hx : Ensures I ok err x)
    (hok : ∀ b, ok b → ok' b) (herr : ∀ e, err e → err' e) : Ensures I ok' err' x := by
  intro m hm
  have h := hx m hm
  split at h
  · exact ⟨h.1, hok _ h.2⟩
  · exact ⟨h.1, herr _ h.2⟩

/-- A fold whose every step answers `g` of what came before. -/
theorem ensures_foldlM {g : β → γ → β} {seen : γ → Prop} {step : β → γ → MemoM α β}
    {xs : List γ}
    (h : ∀ x ∈ xs, ∀ b, Ensures I (fun b' => seen x ∧ b' = g b x) err (step b x)) (b : β) :
    Ensures I (fun b' => (∀ x ∈ xs, seen x) ∧ b' = xs.foldl g b) err (xs.foldlM step b) := by
  induction xs generalizing b with
  | nil => exact ensures_pure ⟨by simp, rfl⟩
  | cons x xs ih =>
    rw [List.foldlM_cons]
    refine (h x (by simp) b).bind ?_
    rintro _ ⟨hx, rfl⟩
    refine (ih (fun y hy => h y (by simp [hy])) _).mono (fun b' hb => ?_) fun _ he => he
    exact ⟨by simpa using ⟨hx, hb.1⟩, hb.2⟩

theorem Ensures.fresh_ok {ok : β → Prop} {x : MemoM α β} (hx : Ensures I ok err x) (h0 : I ∅)
    {b : β} (h : x.fresh = .ok b) : ok b := by
  have hb := hx ∅ h0
  unfold fresh at h
  split at h
  · next e => rw [e] at hb; cases h; exact hb.2
  · cases h

theorem Ensures.fresh_error {ok : β → Prop} {x : MemoM α β} (hx : Ensures I ok err x) (h0 : I ∅)
    {e : Fault} (h : x.fresh = .error e) : err e := by
  have hb := hx ∅ h0
  unfold fresh at h
  split at h
  · cases h
  · next e' => rw [e'] at hb; cases h; exact hb.2

end MemoM

/-- The instruction at the site, in the sequence of that scope, calls the name. -/
def CalledAt (scope : Scope) (code : List Instruction) (site : Site) (name : String) : Prop :=
  ∃ k i, code[k]? = some i ∧ site = ⟨scope, k + 1⟩ ∧ name ∈ i.callNames

theorem CalledAt.mem_calleesOf {scope : Scope} {code : List Instruction} {site : Site}
    {name : String} (h : CalledAt scope code site name) : name ∈ calleesOf code := by
  obtain ⟨k, i, hi, -, hn⟩ := h
  exact SLanguage.mem_calleesOf.mpr ⟨i, List.mem_of_getElem? hi, hn⟩

/-- A fold over a sequence that asks about the names each instruction calls. -/
theorem MemoM.ensures_sequence {I : Memo α → Prop} {err : Fault → Prop} {known : String → Prop}
    {g : β → Instruction → β} {step : β → Instruction × Nat → MemoM α β} {code : List Instruction}
    (h : ∀ k i, code[k]? = some i → ∀ b,
      Ensures I (fun b' => (∀ n ∈ i.callNames, known n) ∧ b' = g b i) err (step b (i, k + 1)))
    (b : β) :
    Ensures I (fun b' => (∀ n ∈ calleesOf code, known n) ∧ b' = code.foldl g b) err
      ((code.zipIdx 1).foldlM step b) := by
  have hstep : ∀ x ∈ code.zipIdx 1, ∀ b,
      Ensures I (fun b' => (∀ n ∈ x.1.callNames, known n) ∧ b' = g b x.1) err (step b x) := by
    rintro ⟨i, position⟩ hx b
    obtain ⟨hle, hi⟩ := List.mk_mem_zipIdx_iff_le_and_getElem?_sub.mp hx
    have := h _ i hi b
    rwa [Nat.sub_add_cancel hle] at this
  refine (ensures_foldlM hstep b).mono (fun b' hb => ⟨?_, ?_⟩) fun _ he => he
  · intro n hn
    obtain ⟨i, hi, hn⟩ := mem_calleesOf.mp hn
    obtain ⟨k, hk⟩ := List.getElem?_of_mem hi
    exact hb.1 (i, 1 + k) (List.mk_add_mem_zipIdx_iff_getElem?.mpr hk) n hn
  · have e : code.foldl g b = ((code.zipIdx 1).map Prod.fst).foldl g b := by
      rw [List.zipIdx_map_fst]
    rw [hb.2, e, List.foldl_map]

/-- The analysis asks about the names called in the body and answers `value` of what it is told. -/
def BodyAnalysis.Follows (analysis : BodyAnalysis α) (value : (String → α) → Function → α) :
    Prop :=
  ∀ (f : Function) (callee : Site → String → MemoM α α) (I : Memo α → Prop) (known : String → Prop)
    (err : Fault → Prop) (val : String → α),
    (∀ site name, CalledAt f.scope f.body site name →
      MemoM.Ensures I (fun a => known name ∧ a = val name) err (callee site name)) →
    MemoM.Ensures I (fun a => (∀ g ∈ f.callees, known g) ∧ a = value val f) err (analysis callee f)

namespace Registry

variable {r : Registry}

/-- Why the analysis of a name that is called at a site fails. -/
inductive Blames (r : Registry) (site : Site) (name : String) : Fault → Prop where
  | unknown {n : String} {s : Site} (hr : ReflTransGen r.Calls name n) (hn : r.get? n = none)
      (hs : (s = site ∧ n = name) ∨
        ∃ f, r.get? f.name = some f ∧ CalledAt f.scope f.body s n) :
      Blames r site name (.unknownFunction n s)
  | recursion {n : String} {chain : List String} (hr : ReflTransGen r.Calls name n)
      (hn : TransGen r.Calls n n) : Blames r site name (.recursiveFunction chain)

theorem Blames.not_grounded {site : Site} {name : String} {e : Fault} (h : r.Blames site name e) :
    ¬ r.Grounded name := by
  intro hg
  cases h with
  | unknown hr hn _ =>
    have := (hg.reach hr).contains
    rw [contains, hn] at this; cases this
  | recursion hr hn => exact (hg.reach hr).not_recursive hn

/-- A callee's fault is its caller's. -/
theorem Blames.caller {site s : Site} {name g : String} {f : Function} {e : Fault}
    (hf : r.get? name = some f) (hc : CalledAt f.scope f.body s g) (h : r.Blames s g e) :
    r.Blames site name e := by
  have hg : r.Calls name g := ⟨f, hf, hc.mem_calleesOf⟩
  cases h with
  | unknown hr hn hs =>
    refine .unknown (.head hg hr) hn (.inr ?_)
    rcases hs with ⟨rfl, rfl⟩ | hs
    · exact ⟨f, by rw [name_of_get? hf]; exact hf, hc⟩
    · exact hs
  | recursion hr hn => exact .recursion (.head hg hr) hn

/-- Everything in the memo is grounded and has the value `val`. -/
def Holds (r : Registry) (val : String → α) (m : Memo α) : Prop :=
  ∀ name a, m[name]? = some a → r.Grounded name ∧ a = val name

theorem holds_empty (val : String → α) : r.Holds val ∅ := by
  intro name a h; simp at h

theorem Holds.insert {val : String → α} {m : Memo α} (h : r.Holds val m) {name : String}
    (hn : r.Grounded name) : r.Holds val (m.insert name (val name)) := by
  intro n a ha
  rw [Std.TreeMap.getElem?_insert] at ha
  split at ha
  · next e => cases ha; rw [← Std.LawfulEqOrd.eq_of_compare e]; exact ⟨hn, rfl⟩
  · exact h n a ha

/-- `val` gives every grounded name the value of its body. -/
def Solves (r : Registry) (value : (String → α) → Function → α) (val : String → α) : Prop :=
  ∀ name f, r.Grounded name → r.get? name = some f → val name = value val f

/-- A chain of callers that leads to a name leads on to every name that it calls. -/
theorem Calls.extends_chain {chain : List String} {name g : String} (h : r.Calls name g)
    (hchain : ∀ c ∈ chain, TransGen r.Calls c name) :
    ∀ c ∈ chain ++ [name], TransGen r.Calls c g := by
  intro c hc
  rcases List.mem_append.mp hc with hc | hc
  · exact (hchain c hc).tail h
  · rw [List.mem_singleton.mp hc]; exact .single h

/-- `Leads chain name` is kept about the callers that lead to a name, and then `err site name` holds
of every fault that the analysis of the name at the site can find. -/
structure Explains (r : Registry) (Leads : List String → String → Prop)
    (err : Site → String → Fault → Prop) : Prop where
  calls : ∀ {chain name g}, Leads chain name → name ∉ chain → r.Calls name g →
    Leads (chain ++ [name]) g
  recursion : ∀ {chain name}, Leads chain name → name ∈ chain → ∀ site,
    err site name (.recursiveFunction (closeChain chain name))
  unknown : ∀ {name}, r.get? name = none → ∀ site, err site name (.unknownFunction name site)
  caller : ∀ {name f s g e}, r.get? name = some f → CalledAt f.scope f.body s g → err s g e →
    ∀ site, err site name e

theorem analyse_ensures_of {analysis : BodyAnalysis α} {value : (String → α) → Function → α}
    {val : String → α} (hA : analysis.Follows value) (hval : r.Solves value val)
    {Leads : List String → String → Prop} {err : Site → String → Fault → Prop}
    (hE : r.Explains Leads err) (chain : List String) (site : Site) (name : String)
    (hchain : Leads chain name) :
    MemoM.Ensures (r.Holds val) (fun a => r.Grounded name ∧ a = val name) (err site name)
      (r.analyse analysis chain site name) := by
  induction hm : r.outside chain using Nat.strongRecOn generalizing chain site name with
  | ind k ih =>
    rw [analyse]
    refine MemoM.Ensures.bind (P := fun m => r.Holds val m) (fun m h => ⟨h, h⟩) fun m hmemo => ?_
    split
    · next a ha => exact MemoM.ensures_pure (hmemo name a ha)
    split
    · next hc => exact MemoM.ensures_throw (hE.recursion hchain hc site)
    next hc =>
    split
    · next hf => exact MemoM.ensures_throw (hE.unknown hf site)
    next f hf =>
    -- the body is analysed with `name` on the chain, which then leads to each callee
    have callee : ∀ s g, CalledAt f.scope f.body s g →
        MemoM.Ensures (r.Holds val) (fun a => r.Grounded g ∧ a = val g) (err site name)
          (r.analyse analysis (chain ++ [name]) s g) := by
      intro s g hg
      have hng : r.Calls name g := ⟨f, hf, hg.mem_calleesOf⟩
      exact (ih _ (hm ▸ outside_append_lt (mem_names_of_get? hf) hc) _ s g
        (hE.calls hchain hc hng) rfl).mono (fun _ h => h) fun _ he => hE.caller hf hg he site
    refine (hA f _ _ _ _ val callee).bind ?_
    rintro a ⟨hgs, rfl⟩
    have hname : r.Grounded name := .intro hf hgs
    rw [← hval name f hname hf]
    refine MemoM.Ensures.bind (P := fun _ => True) (fun m h => ⟨h.insert hname, trivial⟩) ?_
    exact fun _ _ => MemoM.ensures_pure ⟨hname, rfl⟩

theorem explains_blames (r : Registry) :
    r.Explains (fun chain name => ∀ c ∈ chain, TransGen r.Calls c name) r.Blames where
  calls h _ hc := hc.extends_chain h
  recursion h hm _ := .recursion .refl (h _ hm)
  unknown hf _ := .unknown .refl hf (.inl ⟨rfl, rfl⟩)
  caller hf hg he _ := he.caller hf hg

theorem analyse_ensures {analysis : BodyAnalysis α} {value : (String → α) → Function → α}
    {val : String → α} (hA : analysis.Follows value) (hval : r.Solves value val)
    (chain : List String) (site : Site) (name : String)
    (hchain : ∀ c ∈ chain, TransGen r.Calls c name) :
    MemoM.Ensures (r.Holds val) (fun a => r.Grounded name ∧ a = val name) (r.Blames site name)
      (r.analyse analysis chain site name) :=
  analyse_ensures_of hA hval r.explains_blames chain site name hchain

/-! ## The values of grounded names -/

/-- The value of a name, computed from the values of the names that its body calls. -/
inductive Computes (r : Registry) (value : (String → α) → Function → α) : String → α → Prop where
  | intro {name : String} {f : Function} (val : String → α) (hf : r.get? name = some f)
      (hs : ∀ g ∈ f.callees, Computes r value g (val g)) : Computes r value name (value val f)

/-- `value` looks only at the names that the body calls. -/
def Local (value : (String → α) → Function → α) : Prop :=
  ∀ (val val' : String → α) (f : Function), (∀ g ∈ f.callees, val g = val' g) →
    value val f = value val' f

theorem Computes.unique {value : (String → α) → Function → α} (hl : Local value) {name : String}
    {a b : α} (ha : r.Computes value name a) (hb : r.Computes value name b) : a = b := by
  induction ha generalizing b with
  | intro val hf _ ih =>
    cases hb with
    | intro val' hf' hs =>
      rw [hf] at hf'; cases hf'
      exact hl _ _ _ fun g hg => ih g hg (hs g hg)

theorem Grounded.computes [Inhabited α] (value : (String → α) → Function → α) {name : String}
    (h : r.Grounded name) : ∃ a, r.Computes value name a := by
  induction h with
  | intro hf _ ih =>
    choose! val hval using ih
    exact ⟨_, .intro val hf hval⟩

theorem exists_solves [Inhabited α] {value : (String → α) → Function → α} (hl : Local value) :
    ∃ val, r.Solves value val := by
  choose! val hval using fun name (h : r.Grounded name) => h.computes value
  refine ⟨val, fun name f hn hf => (hval name hn).unique hl (.intro val hf fun g hg => ?_)⟩
  exact hval g (hn.call ⟨f, hf, hg⟩)

end Registry

end SLanguage
