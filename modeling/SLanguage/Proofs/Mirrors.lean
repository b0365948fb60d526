import SLanguage.Cost
import SLanguage.Degree
import SLanguage.Proofs.BodyAnalysis

/-!
# Computations side by side

`Mirrors R x y`: from states that `R` relates, `x` and `y` give the same answer or the same fault,
and leave states that `R` relates. An analysis of bodies hands on what its callees keep and never
looks at it, so mirrored callees make mirrored analyses (`BodyAnalysis.Uniform`). With equality for
`R` this says that an analysis depends on its callees only where the body calls them.
-/

namespace SLanguage

variable {σ τ α β γ : Type} {R : σ → τ → Prop}

/-- The same answer or the same fault, in related states. -/
inductive SameResult (R : σ → τ → Prop) :
    EStateM.Result Fault σ β → EStateM.Result Fault τ β → Prop where
  | ok (b : β) {s : σ} {t : τ} (h : R s t) : SameResult R (.ok b s) (.ok b t)
  | error (e : Fault) {s : σ} {t : τ} (h : R s t) : SameResult R (.error e s) (.error e t)

def Mirrors (R : σ → τ → Prop) (x : EStateM Fault σ β) (y : EStateM Fault τ β) : Prop :=
  ∀ s t, R s t → SameResult R (x.run s) (y.run t)

theorem mirrors_pure (b : β) : Mirrors R (pure b) (pure b) :=
  fun _ _ h => .ok b h

theorem mirrors_throw (e : Fault) :
    Mirrors R (throw e : EStateM Fault σ β) (throw e : EStateM Fault τ β) :=
  fun _ _ h => .error e h

/-- What follows need only be mirrored for the answers that the first computation can give. -/
theorem Mirrors.bind_of_answers {x : EStateM Fault σ β} {y : EStateM Fault τ β}
    {f : β → EStateM Fault σ γ} {g : β → EStateM Fault τ γ} (hx : Mirrors R x y)
    (hf : ∀ b, (∃ s t s', R s t ∧ x.run s = .ok b s') → Mirrors R (f b) (g b)) :
    Mirrors R (x >>= f) (y >>= g) := by
  intro s t hst
  have h := hx s t hst
  show SameResult R (EStateM.bind x f s) (EStateM.bind y g t)
  unfold EStateM.bind
  unfold EStateM.run at h
  generalize ha : x s = a at h
  generalize y t = b at h
  cases h with
  | ok b h => exact hf b ⟨s, t, _, hst, ha⟩ _ _ h
  | error e h => exact .error e h

theorem Mirrors.bind {x : EStateM Fault σ β} {y : EStateM Fault τ β} {f : β → EStateM Fault σ γ}
    {g : β → EStateM Fault τ γ} (hx : Mirrors R x y) (hf : ∀ b, Mirrors R (f b) (g b)) :
    Mirrors R (x >>= f) (y >>= g) :=
  hx.bind_of_answers fun b _ => hf b

theorem mirrors_get_bind {f : σ → EStateM Fault σ β} {g : τ → EStateM Fault τ β}
    (h : ∀ s t, R s t → Mirrors R (f s) (g t)) : Mirrors R (get >>= f) (get >>= g) :=
  fun s t hst => h s t hst s t hst

theorem Mirrors.trans {υ : Type} {Q : τ → υ → Prop} {x : EStateM Fault σ β}
    {y : EStateM Fault τ β} {z : EStateM Fault υ β} (hxy : Mirrors R x y) (hyz : Mirrors Q y z) :
    Mirrors (fun s u => ∃ t, R s t ∧ Q t u) x z := by
  intro s u hsu
  obtain ⟨t, hst, htu⟩ := hsu
  have h := hxy s t hst
  have h' := hyz t u htu
  generalize x.run s = a at h ⊢
  generalize y.run t = b at h h'
  generalize z.run u = c at h' ⊢
  cases h with
  | ok b h => cases h' with | ok _ h' => exact .ok b ⟨_, h, h'⟩
  | error e h => cases h' with | error _ h' => exact .error e ⟨_, h, h'⟩

theorem mirrors_foldlM {step : β → γ → EStateM Fault σ β} {step' : β → γ → EStateM Fault τ β}
    {xs : List γ} (h : ∀ x ∈ xs, ∀ b, Mirrors R (step b x) (step' b x)) (b : β) :
    Mirrors R (xs.foldlM step b) (xs.foldlM step' b) := by
  induction xs generalizing b with
  | nil => exact mirrors_pure b
  | cons x xs ih =>
    rw [List.foldlM_cons, List.foldlM_cons]
    exact (h x (.head _) b).bind fun b => ih (fun y hy => h y (.tail _ hy)) b

theorem mirrors_mapM {step : γ → EStateM Fault σ β} {step' : γ → EStateM Fault τ β} {xs : List γ}
    (h : ∀ x ∈ xs, Mirrors R (step x) (step' x)) : Mirrors R (xs.mapM step) (xs.mapM step') := by
  induction xs with
  | nil => exact mirrors_pure []
  | cons x xs ih =>
    rw [List.mapM_cons, List.mapM_cons]
    refine (h x (.head _)).bind fun b => ?_
    exact (ih fun y hy => h y (.tail _ hy)).bind fun bs => mirrors_pure (b :: bs)

/-- Computations that mirror each other in equal states are equal. -/
theorem Mirrors.eq {x y : EStateM Fault σ β} (h : Mirrors (fun s t => s = t) x y) : x = y := by
  funext s
  have hs : SameResult (fun s t => s = t) (x s) (y s) := h s s rfl
  generalize x s = a at hs
  generalize y s = b at hs
  cases hs with
  | ok b h => rw [h]
  | error e h => rw [h]

theorem mirrors_refl (x : EStateM Fault σ β) : Mirrors (fun s t => s = t) x x := by
  intro s t hst
  subst hst
  cases x.run s with
  | ok b s => exact .ok b rfl
  | error e s => exact .error e rfl

/-! ## Analyses -/

/-- Mirrored callees, for the names that the body calls, make mirrored analyses. -/
def BodyAnalysis.Uniform (analysis : BodyAnalysis α) : Prop :=
  ∀ (σ τ : Type) (R : σ → τ → Prop) (f : Function) (callee : Site → String → EStateM Fault σ α)
    (callee' : Site → String → EStateM Fault τ α),
    (∀ site name, CalledAt f.scope f.body site name →
      Mirrors R (callee site name) (callee' site name)) →
    Mirrors R (analysis callee f) (analysis callee' f)

theorem calledAt_of_mem_zipIdx {scope : Scope} {code : List Instruction} {x : Instruction × Nat}
    (hx : x ∈ code.zipIdx 1) {name : String} (hn : name ∈ x.1.callNames) :
    CalledAt scope code ⟨scope, x.2⟩ name := by
  obtain ⟨i, position⟩ := x
  obtain ⟨hle, hi⟩ := List.mk_mem_zipIdx_iff_le_and_getElem?_sub.mp hx
  exact ⟨position - 1, i, hi, by rw [Nat.sub_add_cancel hle], hn⟩

section Cost

variable {body : String → EStateM Fault σ Cycles} {body' : String → EStateM Fault τ Cycles}
  {callee : Site → String → EStateM Fault σ Cycles}
  {callee' : Site → String → EStateM Fault τ Cycles}

namespace Argument

theorem mirrors_listCost {as : List Argument}
    (h : ∀ a ∈ as, Mirrors R (a.cost body) (a.cost body')) (total : Cycles) :
    Mirrors R (listCost body total as) (listCost body' total as) := by
  induction as generalizing total with
  | nil => exact mirrors_pure total
  | cons a rest ih =>
    exact (h a (.head _)).bind fun c => ih (fun b hb => h b (.tail _ hb)) (Word.add total c)

theorem mirrors_cost {a : Argument} (h : ∀ n ∈ a.names, Mirrors R (body n) (body' n)) :
    Mirrors R (a.cost body) (a.cost body') := by
  induction a with
  | leaf v => exact mirrors_pure 0
  | call name arguments ih =>
    have hs : ∀ a ∈ arguments, Mirrors R (a.cost body) (a.cost body') := fun a ha =>
      ih a ha fun n hn => h n (.tail _ (mem_listNames.mpr ⟨a, ha, hn⟩))
    refine (mirrors_listCost hs _).bind fun total => ?_
    exact (h name (.head _)).bind fun c => mirrors_pure (Word.add total c)

end Argument

namespace Cost

theorem mirrors_ofInstruction {site : Site} {i : Instruction}
    (h : ∀ n ∈ i.callNames, Mirrors R (callee site n) (callee' site n)) :
    Mirrors R (ofInstruction callee site i) (ofInstruction callee' site i) := by
  unfold ofInstruction
  cases hc : i.call? with
  | none => exact mirrors_pure _
  | some c =>
    have hnames : i.callNames = c.name :: Argument.listNames c.arguments := by
      rw [Instruction.callNames, hc]; rfl
    rw [hnames] at h
    have hs : ∀ a ∈ c.arguments, Mirrors R (a.cost (callee site)) (a.cost (callee' site)) :=
      fun a ha => Argument.mirrors_cost fun n hn =>
        h n (.tail _ (Argument.mem_listNames.mpr ⟨a, ha, hn⟩))
    refine (Argument.mirrors_listCost hs _).bind fun total => ?_
    exact (h c.name (.head _)).bind fun cost => mirrors_pure (Word.add total cost)

theorem mirrors_ofSequence {scope : Scope} {code : List Instruction}
    (h : ∀ site n, CalledAt scope code site n → Mirrors R (callee site n) (callee' site n)) :
    Mirrors R (ofSequence callee scope code) (ofSequence callee' scope code) :=
  mirrors_mapM fun _ hx => mirrors_ofInstruction fun n hn => h _ n (calledAt_of_mem_zipIdx hx hn)

theorem ofBody_uniform : ofBody.Uniform := by
  intro σ τ R f callee callee' h
  refine mirrors_foldlM (fun x hx total => ?_) 0
  have hi : Mirrors R (ofInstruction callee ⟨f.scope, x.2⟩ x.1)
      (ofInstruction callee' ⟨f.scope, x.2⟩ x.1) :=
    mirrors_ofInstruction fun n hn => h _ n (calledAt_of_mem_zipIdx hx hn)
  exact hi.bind fun c => mirrors_pure (Word.add total c)

end Cost

end Cost

section Degree

variable {body : String → EStateM Fault σ Nat} {body' : String → EStateM Fault τ Nat}
  {callee : Site → String → EStateM Fault σ Nat} {callee' : Site → String → EStateM Fault τ Nat}

namespace Argument

theorem mirrors_listDegree {as : List Argument}
    (h : ∀ a ∈ as, Mirrors R (a.degree body) (a.degree body')) (inner : Nat) :
    Mirrors R (listDegree body inner as) (listDegree body' inner as) := by
  induction as generalizing inner with
  | nil => exact mirrors_pure inner
  | cons a rest ih =>
    exact (h a (.head _)).bind fun d => ih (fun b hb => h b (.tail _ hb)) (max inner d)

theorem mirrors_degree {a : Argument} (h : ∀ n ∈ a.names, Mirrors R (body n) (body' n)) :
    Mirrors R (a.degree body) (a.degree body') := by
  induction a with
  | leaf v => exact mirrors_pure 0
  | call name arguments ih =>
    have hs : ∀ a ∈ arguments, Mirrors R (a.degree body) (a.degree body') := fun a ha =>
      ih a ha fun n hn => h n (.tail _ (mem_listNames.mpr ⟨a, ha, hn⟩))
    refine (h name (.head _)).bind fun d => ?_
    exact (mirrors_listDegree hs (max 2 d)).bind fun inner => mirrors_pure (1 + inner)

end Argument

namespace Degree

theorem mirrors_ofInstruction {site : Site} {i : Instruction}
    (h : ∀ n ∈ i.callNames, Mirrors R (callee site n) (callee' site n)) :
    Mirrors R (ofInstruction callee site i) (ofInstruction callee' site i) := by
  obtain ⟨l, command⟩ := i
  cases command with
  | quote v c => exact Argument.mirrors_degree h
  | jumpEqualCall v c t =>
    exact (Argument.mirrors_degree (a := c.toArgument) h).bind fun d => mirrors_pure (1 + max d 3)
  | _ => exact mirrors_pure _

theorem mirrors_ofSequence {scope : Scope} {code : List Instruction}
    (h : ∀ site n, CalledAt scope code site n → Mirrors R (callee site n) (callee' site n)) :
    Mirrors R (ofSequence callee scope code) (ofSequence callee' scope code) := by
  refine mirrors_foldlM (fun x hx d => ?_) 0
  have hi : Mirrors R (ofInstruction callee ⟨scope, x.2⟩ x.1)
      (ofInstruction callee' ⟨scope, x.2⟩ x.1) :=
    mirrors_ofInstruction fun n hn => h _ n (calledAt_of_mem_zipIdx hx hn)
  exact hi.bind fun c => mirrors_pure (max d c)

theorem ofBody_uniform : ofBody.Uniform :=
  fun _ _ _ _ _ _ h => mirrors_ofSequence h

end Degree

end Degree

end SLanguage
