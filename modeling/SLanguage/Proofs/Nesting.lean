import Mathlib.Data.List.Perm.Subperm
import SLanguage.Proofs.Monotone

/-!
# No function is entered while it is active

A moment of an evaluation is what is being done, below the functions whose bodies are active
(`Moment`); `r.Leads` goes from a moment to the next one on the way in or forward. Nothing here
checks for recursion but the charge before each step: a call that a step makes has a cost, so its
names are grounded (`exists_instructionCost_iff`), and every active function leads to them by calls.
So a function that is entered below the first one is grounded and not among the active ones
(`Leads.orderly`). A call that does not come from a step is made where nothing is active yet.

`r.watchTo` is the evaluator with a watch on the active functions. Its alarm is never heard, and
depth beyond the number of functions is never used (`watchTo_eq_invoke`).
-/

namespace SLanguage

open Relation

/-! ## The active functions -/

/-- `n` can be entered while `c` is active: it is grounded, and calls lead from `c` to it. -/
def Registry.Below (r : Registry) (n c : String) : Prop := r.Grounded n ∧ TransGen r.Calls c n

/-- The names of active functions, innermost first: registered ones, each entered while the ones
after it were active. -/
structure Registry.Active (r : Registry) (active : List String) : Prop where
  ordered : active.Pairwise r.Below
  registered : active ⊆ r.names

namespace Registry

variable {r : Registry} {active : List String} {name : String}

theorem Below.ne {n c : String} (h : r.Below n c) : n ≠ c := by
  rintro rfl
  exact h.1.not_recursive h.2

theorem active_nil (r : Registry) : r.Active [] := ⟨.nil, List.nil_subset _⟩

theorem Active.cons (h : r.Active active) (hr : name ∈ r.names)
    (hb : ∀ c ∈ active, r.Below name c) : r.Active (name :: active) :=
  ⟨.cons hb h.ordered, List.cons_subset.mpr ⟨hr, h.registered⟩⟩

theorem Active.nodup (h : r.Active active) : active.Nodup := h.ordered.imp Below.ne

theorem Active.length_le (h : r.Active active) : active.length ≤ r.size := by
  rw [← r.length_names]
  exact (List.subperm_of_subset h.nodup h.registered).length_le

end Registry

/-! ## Moments of an evaluation -/

inductive Task where
  /-- An argument is evaluated in the frame of its caller. -/
  | value (a : Argument) (site : Site) (frame : Frame)
  /-- A routine is in a state of its run. -/
  | run (p : Routine) (s : State)

structure Moment where
  /-- The functions whose bodies are being executed, innermost first. -/
  active : List String
  task : Task

namespace Registry

variable {r : Registry}

/-- The next moment, inside or after the present one. What was evaluated on the way is worth what
the evaluator finds within some bounds. -/
inductive Leads (r : Registry) : Moment → Moment → Prop where
  /-- The arguments of a call, one after the other. -/
  | argument {active : List String} {name : String} {before after : List Argument} {a : Argument}
      {site : Site} {frame : Frame} {bound depth : Nat} {vs : List Value}
      (h : Argument.listValues r (r.invokeTo bound depth) site frame before = .done vs) :
      Leads r ⟨active, .value (.call name (before ++ a :: after)) site frame⟩
        ⟨active, .value a site frame⟩
  /-- Then the body of the function. -/
  | enter {active : List String} {name : String} {arguments : List Argument} {site : Site}
      {frame : Frame} {bound depth : Nat} {vs : List Value} {f : Function} {p : Routine}
      (h : Argument.listValues r (r.invokeTo bound depth) site frame arguments = .done vs)
      (hf : r.lookup name site = .ok f) (hp : Routine.ofFunction f = .ok p) :
      Leads r ⟨active, .value (.call name arguments) site frame⟩
        ⟨f.name :: active, .run p (p.start vs)⟩
  | step {active : List String} {p : Routine} {s s' : State} {report : Report} {bound depth : Nat}
      (h : p.stepWith r (r.invokeTo bound depth) s = .took report s') :
      Leads r ⟨active, .run p s⟩ ⟨active, .run p s'⟩
  /-- A step that makes a call is charged before. -/
  | call {active : List String} {p : Routine} {s : State} {i : Instruction} {cost : Cycles}
      {c : Call} (hs : s.halted = false) (hi : p.code[s.pointer]? = some i)
      (hcost : (r.instructionCost ⟨p.scope, s.position⟩ i).fresh = .ok cost)
      (hc : i.call? = some c) :
      Leads r ⟨active, .run p s⟩ ⟨active, .value c.toArgument ⟨p.scope, s.position⟩ s.frame⟩

/-- What can be run by itself: a program, where no function is active, or the body of a registered
function, which then is. -/
inductive Hosts (r : Registry) : List String → Routine → Prop where
  | program (p : Routine) : Hosts r [] p
  | body {f : Function} {p : Routine} (hf : r.get? f.name = some f)
      (hp : Routine.ofFunction f = .ok p) : Hosts r [f.name] p

/-- Where an evaluation starts: with any call in any frame, or in any state of a run. -/
inductive Starts (r : Registry) : Moment → Prop where
  | call (c : Call) (site : Site) (frame : Frame) : Starts r ⟨[], .value c.toArgument site frame⟩
  | run {active : List String} {p : Routine} (h : r.Hosts active p) (s : State) :
      Starts r ⟨active, .run p s⟩

/-- What a task can call from here: what an argument calls was charged, if anything is active; what
a routine calls was not, but all active functions lead to it. -/
def Safe (r : Registry) (active : List String) : Task → Prop
  | .value a _ _ => ∀ n ∈ a.names, ∀ c ∈ active, r.Below n c
  | .run p _ => ∀ n ∈ calleesOf p.code.toList, ∀ c ∈ active, TransGen r.Calls c n

/-- What every moment of an evaluation satisfies. -/
structure Orderly (r : Registry) (m : Moment) : Prop where
  active : r.Active m.active
  safe : r.Safe m.active m.task

theorem get?_of_lookup {name : String} {site : Site} {f : Function}
    (h : r.lookup name site = .ok f) : r.get? f.name = some f ∧ f.name = name := by
  unfold lookup at h
  split at h
  · next g hg => cases h; exact ⟨(name_of_get? hg).symm ▸ hg, name_of_get? hg⟩
  · cases h

/-- The body of a function is safe below what the function was entered below. -/
theorem safe_body {active : List String} {f : Function} {p : Routine}
    (hf : r.get? f.name = some f) (hp : Routine.ofFunction f = .ok p)
    (hb : ∀ c ∈ active, r.Below f.name c) (s : State) : r.Safe (f.name :: active) (.run p s) := by
  intro n hn
  have hcall : r.Calls f.name n := by
    rw [(Routine.ofCode_ok hp).1] at hn
    exact ⟨f, hf, hn⟩
  exact List.forall_mem_cons.mpr ⟨.single hcall, fun c hc => (hb c hc).2.tail hcall⟩

/-- What is entered next is not active already. -/
theorem Leads.orderly {m m' : Moment} (h : r.Leads m m') (hm : r.Orderly m) : r.Orderly m' := by
  obtain ⟨ha, hs⟩ := hm
  cases h with
  | argument h =>
    refine ⟨ha, fun n hn => hs n ?_⟩
    exact List.mem_cons_of_mem _ (Argument.mem_listNames.mpr ⟨_, by simp, hn⟩)
  | enter h hf hp =>
    obtain ⟨hget, rfl⟩ := get?_of_lookup hf
    have hb := hs _ (List.mem_cons_self ..)
    exact ⟨ha.cons (mem_names_of_get? hget) hb, safe_body hget hp hb _⟩
  | step h => exact ⟨ha, hs⟩
  | @call active p s i cost c hh hi hcost hc =>
    have hm : i ∈ p.code.toList := by
      rw [Array.mem_toList_iff]
      exact Array.mem_of_getElem? hi
    refine ⟨ha, fun n hn d hd => ?_⟩
    have hn : n ∈ i.callNames := by
      rw [Instruction.callNames, hc]
      exact hn
    exact ⟨exists_instructionCost_iff.mp ⟨cost, hcost⟩ n hn,
      hs n (mem_calleesOf.mpr ⟨i, hm, hn⟩) d hd⟩

theorem Orderly.of_reach {m m' : Moment} (hm : r.Orderly m) (h : ReflTransGen r.Leads m m') :
    r.Orderly m' := by
  induction h with
  | refl => exact hm
  | tail _ h ih => exact h.orderly ih

theorem Hosts.orderly {active : List String} {p : Routine} (h : r.Hosts active p) (s : State) :
    r.Orderly ⟨active, .run p s⟩ := by
  cases h with
  | program => exact ⟨r.active_nil, fun n _ => List.forall_mem_nil _⟩
  | body hf hp =>
    exact ⟨r.active_nil.cons (mem_names_of_get? hf) (List.forall_mem_nil _),
      safe_body hf hp (List.forall_mem_nil _) s⟩

theorem Starts.orderly {m : Moment} (h : r.Starts m) : r.Orderly m := by
  cases h with
  | call c site frame => exact ⟨r.active_nil, fun n _ => List.forall_mem_nil _⟩
  | run h s => exact h.orderly s

/-! ## Bodies inside bodies -/

/-- A function and the values that it is invoked on. -/
abbrev Invocation := Function × List Value

/-- The body of the one invocation, run by itself, comes to the body of the other. -/
def Nests (r : Registry) (x y : Invocation) : Prop :=
  ∃ p q, r.get? x.1.name = some x.1 ∧ Routine.ofFunction x.1 = .ok p ∧
    r.get? y.1.name = some y.1 ∧ Routine.ofFunction y.1 = .ok q ∧
    ReflTransGen r.Leads ⟨[x.1.name], .run p (p.start x.2)⟩
      ⟨[y.1.name, x.1.name], .run q (q.start y.2)⟩

theorem Nests.below {x y : Invocation} (h : r.Nests x y) : r.Below y.1.name x.1.name := by
  obtain ⟨p, q, hx, hp, -, -, h⟩ := h
  have hm := ((Hosts.body hx hp).orderly _).of_reach h
  exact List.rel_of_pairwise_cons hm.active.ordered (List.mem_singleton.mpr rfl)

theorem Grounded.finite {name : String} (h : r.Grounded name) : r.Finite name := by
  induction h with
  | intro hf _ ih =>
    refine .intro _ ?_
    rintro g ⟨f, hf', hg⟩
    cases hf.symm.trans hf'
    exact ih g hg

/-- Calls do not nest forever, whether or not the registry has a recursion: only the first body can
be one from which calls go on forever. -/
theorem nests_wellFounded (r : Registry) : WellFounded fun y x => r.Nests x y := by
  refine ⟨fun x => .intro x fun y hxy => ?_⟩
  have hfinite : Acc (TransGen fun b a => r.Calls a b) y.1.name := hxy.below.1.finite.transGen
  refine Subrelation.accessible (fun h => ?_)
    (InvImage.accessible (fun z : Invocation => z.1.name) hfinite)
  exact transGen_swap.mpr h.below.2

end Registry

/-! ## The evaluator under watch -/

/-- On the registered functions of these names, `a` and `b` say the same. -/
def Invoke.AgreeOn (r : Registry) (names : String → Prop) (a b : Invoke) : Prop :=
  ∀ n, names n → ∀ f, r.get? n = some f → ∀ vs, a f vs = b f vs

section

variable {r : Registry} {names : String → Prop} {a b : Invoke}

theorem Invoke.AgreeOn.leOn (h : AgreeOn r names a b) : LeOn r names a b ∧ LeOn r names b a := by
  refine ⟨fun n hn f hf vs => ?_, fun n hn f hf vs => ?_⟩
  · rw [h n hn f hf vs]
    exact .refl _
  · rw [h n hn f hf vs]
    exact .refl _

theorem Call.value_congr {c : Call} (h : Invoke.AgreeOn r (· ∈ c.names) a b) (site : Site)
    (frame : Frame) : c.value r a site frame = c.value r b site frame :=
  (Argument.value_le site frame c.toArgument h.leOn.1).antisymm
    (Argument.value_le site frame c.toArgument h.leOn.2)

theorem Routine.stepWith_congr {p : Routine} (h : Invoke.AgreeOn r (p.Callable r) a b)
    (s : State) : p.stepWith r a s = p.stepWith r b s := by
  rcases stepWith_le h.leOn.1 s with hu | he
  · rcases stepWith_le h.leOn.2 s with hu' | he
    · rw [hu, hu']
    · exact he.symm
  · exact he

theorem Routine.finishWith_congr {p : Routine} (h : Invoke.AgreeOn r (p.Callable r) a b)
    (bound : Nat) (s : State) : p.finishWith r a bound s = p.finishWith r b bound s :=
  (finishWith_le h.leOn.1 (Nat.le_refl bound) s).antisymm
    (finishWith_le h.leOn.2 (Nat.le_refl bound) s)

end

namespace Registry

variable {r : Registry} {alarm : Bounded Value} {bound depth : Nat} {active : List String}

/-- Runs a function as `invokeTo` does, below the active functions. Instead of entering one of them
again, or more than there are functions, it gives the alarm. -/
def watchTo (r : Registry) (alarm : Bounded Value) (bound : Nat) :
    (depth : Nat) → (active : List String) → Invoke
  | 0, _, _, _ => .unfinished
  | depth + 1, active, f, values =>
    if f.name ∈ active ∨ r.size ≤ active.length then alarm
    else do
      let p ← .ofExcept (Routine.ofFunction f)
      let s ← p.finishWith r (r.watchTo alarm bound depth (f.name :: active)) bound (p.start values)
      .done s.frame.result

theorem watchTo_eq_invokeTo {f : Function} (hf : r.get? f.name = some f) (ha : r.Active active)
    (hb : ∀ c ∈ active, r.Below f.name c) (vs : List Value) :
    r.watchTo alarm bound depth active f vs = r.invokeTo bound depth f vs := by
  induction depth generalizing active f vs with
  | zero => rfl
  | succ depth ih =>
    have ha' := ha.cons (mem_names_of_get? hf) hb
    have hquiet : ¬ (f.name ∈ active ∨ r.size ≤ active.length) := by
      have hle := ha'.length_le
      rw [List.length_cons] at hle
      rintro (hm | hge)
      · exact (List.nodup_cons.mp ha'.nodup).1 hm
      · omega
    rw [watchTo, if_neg hquiet, invokeTo]
    cases hp : Routine.ofFunction f with
    | error e => rfl
    | ok p =>
      have hcallee : Invoke.AgreeOn r (p.Callable r)
          (r.watchTo alarm bound depth (f.name :: active)) (r.invokeTo bound depth) := by
        rintro n ⟨hn, hg⟩ g hget ws
        obtain rfl := name_of_get? hget
        exact ih hget ha' (fun c hc => ⟨hg, safe_body hf hp hb (p.start vs) _ hn c hc⟩) ws
      simp only [Bounded.ofExcept, Bounded.done_bind, Routine.finishWith_congr hcallee]

/-- The watch never gives the alarm, and no depth beyond the number of functions is used. -/
theorem watchTo_eq_invoke (hd : r.size ≤ depth) {f : Function} (hf : r.get? f.name = some f)
    (ha : r.Active active) (hb : ∀ c ∈ active, r.Below f.name c) (vs : List Value) :
    r.watchTo alarm bound depth active f vs = r.invoke bound f vs := by
  rw [watchTo_eq_invokeTo hf ha hb]
  exact (invokeTo_le_size hf vs).antisymm (invokeTo_le (Nat.le_refl bound) hd hf vs)

theorem Hosts.agreeOn {p : Routine} (h : r.Hosts active p) (hd : r.size ≤ depth) :
    Invoke.AgreeOn r (p.Callable r) (r.watchTo alarm bound depth active) (r.invoke bound) := by
  rintro n ⟨hn, hg⟩ f hf vs
  obtain rfl := name_of_get? hf
  have hm := h.orderly (p.start vs)
  exact watchTo_eq_invoke hd hf hm.active (fun c hc => ⟨hg, hm.safe _ hn c hc⟩) vs

/-- Evaluation never enters a function that is active. This holds of every registry, in every moment
of an evaluation that starts with any call in any frame, or in any state of a program or of the body
of a registered function. So the active functions are never more than there are functions, calls
nest in a well-founded way, and the evaluator does what it would do with any greater depth and under
a watch for both. -/
theorem evaluation_never_reenters (r : Registry) :
    (∀ m m', r.Starts m → ReflTransGen r.Leads m m' →
      m'.active.Nodup ∧ m'.active.length ≤ r.size) ∧
    (WellFounded fun y x => r.Nests x y) ∧
    ∀ (alarm : Bounded Value) (bound depth : Nat), r.size ≤ depth →
      (∀ (c : Call) site frame, c.value r (r.watchTo alarm bound depth []) site frame =
        r.evaluate bound site frame c) ∧
      ∀ active p, r.Hosts active p → ∀ s,
        p.stepWith r (r.watchTo alarm bound depth active) s = p.step r bound s ∧
        p.finishWith r (r.watchTo alarm bound depth active) bound s = p.finish r bound s := by
  refine ⟨fun m m' hm h => ?_, r.nests_wellFounded, fun alarm bound depth hd =>
    ⟨fun c site frame => Call.value_congr (fun n _ f hf vs => ?_) site frame,
      fun active p h s => ?_⟩⟩
  · have ha := (hm.orderly.of_reach h).active
    exact ⟨ha.nodup, ha.length_le⟩
  · obtain rfl := name_of_get? hf
    exact watchTo_eq_invoke hd hf r.active_nil (List.forall_mem_nil _) vs
  · exact ⟨Routine.stepWith_congr (h.agreeOn hd) s,
      Routine.finishWith_congr (h.agreeOn hd) bound s⟩

/-- A function that returns at once. -/
def inner : Function where
  name := "INNER"
  body := []

def outer : Function where
  name := "OUTER"
  body := [⟨.empty, .quote .result ⟨"INNER", []⟩⟩]

def nested : Registry := .ofList [inner, outer]

/-- Two functions, one inside the other, are active at once, and each of them once. -/
theorem evaluation_enters_nested : ∃ m : Moment,
    ReflTransGen nested.Leads ⟨[], .value (.call "OUTER" []) Program.site {}⟩ m ∧
      m.active = ["INNER", "OUTER"] ∧ m.active.Nodup ∧ m.active.length ≤ 2 := by
  obtain ⟨p, hp⟩ : ∃ p, Routine.ofFunction outer = .ok p := ⟨_, rfl⟩
  obtain ⟨q, hq⟩ : ∃ q, Routine.ofFunction inner = .ok q := ⟨_, rfl⟩
  obtain ⟨hcode, hscope, -⟩ := Routine.ofCode_ok hp
  have hground : nested.Grounded "INNER" :=
    .intro (rfl : _ = some inner) (List.forall_mem_nil _)
  obtain ⟨cost, hcost⟩ : ∃ cost, (nested.instructionCost ⟨outer.scope, 1⟩
      ⟨.empty, .quote .result ⟨"INNER", []⟩⟩).fresh = .ok cost :=
    exists_instructionCost_iff.mpr fun n hn => List.mem_singleton.mp hn ▸ hground
  have hvs (site : Site) (frame : Frame) :
      Argument.listValues nested (nested.invokeTo 0 0) site frame [] = .done [] := rfl
  have henter : nested.Leads ⟨[], .value (.call "OUTER" []) Program.site {}⟩
      ⟨["OUTER"], .run p (p.start [])⟩ :=
    .enter (hvs _ _) (rfl : nested.lookup "OUTER" _ = .ok outer) hp
  have hcall : nested.Leads ⟨["OUTER"], .run p (p.start [])⟩
      ⟨["OUTER"], .value (.call "INNER" []) ⟨p.scope, 1⟩ (p.start []).frame⟩ :=
    .call (c := ⟨"INNER", []⟩) (by rw [Routine.start, hcode]; rfl) (by rw [hcode]; rfl)
      (hscope ▸ hcost) rfl
  have hnested : nested.Leads
      ⟨["OUTER"], .value (.call "INNER" []) ⟨p.scope, 1⟩ (p.start []).frame⟩
      ⟨["INNER", "OUTER"], .run q (q.start [])⟩ :=
    .enter (hvs _ _) (rfl : nested.lookup "INNER" _ = .ok inner) hq
  have hreach := ((ReflTransGen.single henter).tail hcall).tail hnested
  exact ⟨_, hreach, rfl,
    (evaluation_never_reenters nested).1 _ _ (.call ⟨"OUTER", []⟩ Program.site {}) hreach⟩

end Registry

end SLanguage
