import SLanguage.Proofs.Prediction

/-!
# More steps change no answer

`x.Le y`: the bounded computation `y` says what `x` says, unless `x` says nothing. A run is monotone
in what it knows of the functions that it calls, hence in the bound on steps and in the depth of
calls (`invokeTo_le`). A step calls grounded functions only, since it is charged first. So along a
chain of active calls no name comes twice, and the depth stops mattering at the number of functions
(`invokeTo_le_size`).
-/

namespace SLanguage

open Relation

namespace Bounded

variable {α β : Type}

inductive Le : Bounded α → Bounded α → Prop where
  | unfinished (y : Bounded α) : Le .unfinished y
  | refl (x : Bounded α) : Le x x

theorem Le.done {x y : Bounded α} (h : x.Le y) {a : α} (hx : x = .done a) : y = .done a := by
  cases h with
  | unfinished => cases hx
  | refl => exact hx

theorem Le.failed {x y : Bounded α} (h : x.Le y) {e : Fault} (hx : x = .failed e) :
    y = .failed e := by
  cases h with
  | unfinished => cases hx
  | refl => exact hx

theorem Le.bind {x y : Bounded α} {f g : α → Bounded β} (h : x.Le y) (hf : ∀ a, (f a).Le (g a)) :
    (x >>= f).Le (y >>= g) := by
  cases h with
  | unfinished => exact .unfinished _
  | refl =>
    cases x with
    | done a => exact hf a
    | failed e => exact .refl _
    | unfinished => exact .refl _

theorem Le.antisymm {x y : Bounded α} (h : x.Le y) (h' : y.Le x) : x = y := by
  cases h with
  | unfinished => cases h' <;> rfl
  | refl => rfl

end Bounded

/-- On the registered functions of these names, `b` says what `a` says. -/
def Invoke.LeOn (r : Registry) (names : String → Prop) (a b : Invoke) : Prop :=
  ∀ n, names n → ∀ f, r.get? n = some f → ∀ vs, (a f vs).Le (b f vs)

theorem Invoke.LeOn.mono {r : Registry} {names names' : String → Prop} {a b : Invoke}
    (h : LeOn r names a b) (hs : ∀ n, names' n → names n) : LeOn r names' a b :=
  fun n hn => h n (hs n hn)

variable {r : Registry} {a b : Invoke}

namespace Argument

theorem listValues_congr {r' : Registry} {site : Site} {f g : Frame} {as : List Argument}
    (h : ∀ x ∈ as, x.value r a site f = x.value r' b site g) :
    listValues r a site f as = listValues r' b site g as := by
  induction as with
  | nil => rfl
  | cons x rest ih =>
    rw [listValues, listValues, h x (by simp), ih fun y hy => h y (by simp [hy])]

variable (site : Site) (frame : Frame)

theorem listValues_le {as : List Argument}
    (h : ∀ x ∈ as, (x.value r a site frame).Le (x.value r b site frame)) :
    (listValues r a site frame as).Le (listValues r b site frame as) := by
  induction as with
  | nil => exact .refl _
  | cons x rest ih =>
    refine (h x (by simp)).bind fun v => ?_
    exact (ih fun y hy => h y (by simp [hy])).bind fun vs => .refl _

theorem value_le (x : Argument) (h : Invoke.LeOn r (· ∈ x.names) a b) :
    (x.value r a site frame).Le (x.value r b site frame) := by
  induction x with
  | leaf v => exact .refl _
  | call name arguments ih =>
    have hs : ∀ x ∈ arguments, (x.value r a site frame).Le (x.value r b site frame) := fun x hx =>
      ih x hx (h.mono fun n hn => List.mem_cons_of_mem _ (mem_listNames.mpr ⟨x, hx, hn⟩))
    refine (listValues_le site frame hs).bind fun vs => ?_
    cases hf : r.get? name with
    | none => simp only [Registry.lookup, hf]; exact .refl _
    | some f =>
      simp only [Registry.lookup, hf]
      exact h name (List.mem_cons_self ..) f hf vs

end Argument

theorem Command.execute_congr {evaluate evaluate' : Call → Bounded Value} {c : Command} {f : Frame}
    (h : ∀ call, c.call? = some call → evaluate call = evaluate' call) :
    c.execute evaluate f = c.execute evaluate' f := by
  cases c with
  | quote v call => rw [execute, execute, h call rfl]
  | jumpEqualCall v call l => rw [execute, execute, h call rfl]
  | _ => rfl

theorem Command.execute_le {evaluate evaluate' : Call → Bounded Value} {f : Frame} {c : Command}
    (h : ∀ call, c.call? = some call → (evaluate call).Le (evaluate' call)) :
    (c.execute evaluate f).Le (c.execute evaluate' f) := by
  cases c with
  | quote v call => exact (h call rfl).bind fun _ => .refl _
  | jumpEqualCall v call l => exact (h call rfl).bind fun _ => .refl _
  | _ => exact .refl _

namespace Routine

variable {p : Routine}

/-- The functions that a step of the routine can call: the callees that have a cost. -/
def Callable (r : Registry) (p : Routine) (n : String) : Prop :=
  n ∈ calleesOf p.code.toList ∧ r.Grounded n

theorem stepWith_le (h : Invoke.LeOn r (p.Callable r) a b) (s : State) :
    p.stepWith r a s = .unfinished ∨ p.stepWith r a s = p.stepWith r b s := by
  unfold stepWith
  split
  · exact .inr rfl
  split
  · exact .inr rfl
  next i hi =>
  have hm : i ∈ p.code.toList := by
    rw [Array.mem_toList_iff]
    exact Array.mem_of_getElem? hi
  rcases r.instructionCost_fresh ⟨p.scope, s.position⟩ i with
    ⟨cost, hcost, hground⟩ | ⟨e, hcost, -⟩
  · have hcall : ∀ call, i.command.call? = some call →
        (Call.value r a ⟨p.scope, s.position⟩ s.frame call).Le
          (Call.value r b ⟨p.scope, s.position⟩ s.frame call) := by
      intro call hc
      refine Argument.value_le _ _ call.toArgument (h.mono fun n hn => ?_)
      have hn : n ∈ i.callNames := by
        rw [Instruction.callNames, Instruction.call?, hc]
        exact hn
      exact ⟨mem_calleesOf.mpr ⟨i, hm, hn⟩, hground n hn⟩
    have hx := Command.execute_le (f := s.frame) hcall
    simp only [hcost, perform]
    generalize i.command.execute (Call.value r a _ _) _ = x at hx
    generalize i.command.execute (Call.value r b _ _) _ = y at hx
    cases hx with
    | unfinished => exact .inl rfl
    | refl => exact .inr rfl
  · right
    simp only [hcost]

theorem finishWith_le (h : Invoke.LeOn r (p.Callable r) a b) {m n : Nat} (hmn : m ≤ n)
    (s : State) : (p.finishWith r a m s).Le (p.finishWith r b n s) := by
  induction m generalizing n s with
  | zero => exact .unfinished _
  | succ m ih =>
    obtain ⟨n, rfl⟩ : ∃ k, n = k + 1 := ⟨n - 1, by omega⟩
    rw [finishWith, finishWith]
    rcases stepWith_le h s with hs | hs
    · rw [hs]; exact .unfinished _
    · rw [← hs]
      cases p.stepWith r a s with
      | halted => exact .refl _
      | took report next => exact ih (by omega) next
      | failed e next => exact .refl _
      | unfinished => exact .refl _

end Routine

namespace Registry

/-- Along `chain` the calls lead to the function, which is not on it, and the names outside it are
no more than the depth that is left. -/
def Deep (r : Registry) (depth : Nat) (f : Function) : Prop :=
  ∃ chain, r.outside chain ≤ depth ∧ f.name ∉ chain ∧ ∀ c ∈ chain, TransGen r.Calls c f.name

theorem Deep.callee {depth : Nat} {f g : Function} (h : r.Deep (depth + 1) f)
    (hf : r.get? f.name = some f) (hc : g.name ∈ f.callees) (hg : r.Grounded g.name) :
    r.Deep depth g := by
  obtain ⟨chain, hout, hnew, hchain⟩ := h
  have hlt := outside_append_lt (mem_names_of_get? hf) hnew
  have hcall := Calls.extends_chain ⟨f, hf, hc⟩ hchain
  exact ⟨chain ++ [f.name], by omega, fun hm => hg.not_recursive (hcall _ hm), hcall⟩

theorem not_deep_zero {f : Function} (hf : r.get? f.name = some f) : ¬ r.Deep 0 f := by
  rintro ⟨chain, hout, hnew, -⟩
  have hlt := outside_append_lt (mem_names_of_get? hf) hnew
  omega

theorem invokeTo_le_of {m n : Nat} (hmn : m ≤ n) {d d' : Nat} {f : Function}
    (hf : r.get? f.name = some f) (hd : d ≤ d' ∨ r.Deep d' f) (vs : List Value) :
    (r.invokeTo m d f vs).Le (r.invokeTo n d' f vs) := by
  induction d' generalizing d f vs with
  | zero =>
    rcases hd with hd | hd
    · obtain rfl : d = 0 := by omega
      exact .refl _
    · exact absurd hd (not_deep_zero hf)
  | succ d' ih =>
    cases d with
    | zero => exact .unfinished _
    | succ d =>
      rw [invokeTo, invokeTo]
      cases hp : Routine.ofFunction f with
      | error e => exact .refl _
      | ok p =>
        have hcode : calleesOf p.code.toList = f.callees := by
          rw [(Routine.ofCode_ok hp).1]
          rfl
        refine (Routine.finishWith_le ?_ hmn _).bind fun s => .refl _
        rintro g ⟨hc, hg⟩ fg hfg vs
        have hname := name_of_get? hfg
        rw [hcode, ← hname] at hc
        rw [← hname] at hg
        refine ih (by rw [hname]; exact hfg) (hd.imp (by omega) fun h => h.callee hf hc hg) vs

/-- A larger bound and a larger depth keep every answer. -/
theorem invokeTo_le {m n d d' : Nat} (hmn : m ≤ n) (hd : d ≤ d') {f : Function}
    (hf : r.get? f.name = some f) (vs : List Value) :
    (r.invokeTo m d f vs).Le (r.invokeTo n d' f vs) :=
  invokeTo_le_of hmn hf (.inl hd) vs

/-- The number of functions is depth enough. -/
theorem invokeTo_le_size {n d : Nat} {f : Function} (hf : r.get? f.name = some f)
    (vs : List Value) : (r.invokeTo n d f vs).Le (r.invokeTo n r.size f vs) := by
  refine invokeTo_le_of (Nat.le_refl n) hf (.inr ⟨[], ?_, by simp, by simp⟩) vs
  rw [outside, ← length_names]
  exact List.countP_le_length

/-- What is found at any depth is found by `invoke`. -/
theorem invokeTo_leOn_invoke (r : Registry) (n d : Nat) (names : String → Prop) :
    Invoke.LeOn r names (r.invokeTo n d) (r.invoke n) :=
  fun _ _ _ hf vs => invokeTo_le_size (by rwa [name_of_get? hf]) vs

theorem invoke_le (r : Registry) {m n : Nat} (hmn : m ≤ n) (names : String → Prop) :
    Invoke.LeOn r names (r.invoke m) (r.invoke n) :=
  fun _ _ _ hf vs => invokeTo_le hmn (Nat.le_refl _) (by rwa [name_of_get? hf]) vs

end Registry

/-- A larger bound keeps the state in which a run ends. -/
theorem Routine.finish_le {m n : Nat} (p : Routine) (hmn : m ≤ n) (s : State) :
    (p.finish r m s).Le (p.finish r n s) :=
  finishWith_le (r.invoke_le hmn _) hmn s

end SLanguage
