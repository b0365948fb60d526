import SLanguage.Proofs.Accounting
import SLanguage.Proofs.Meaning

/-!
# The block of a call on its own

A block is self-contained when its jumps stay inside and all that it calls is grounded. Run by
itself such a block does not fail, and it can only be left by its end
(`SelfContained.pointer_of_finishWith`). The splice that takes the place of `v <- (F,…)` is
self-contained, and its run ends exactly if the call has a value. It then has that value in `v`, and
has changed no other variable but those drawn for it, whatever these held before.
-/

namespace SLanguage

open Names

variable {r : Registry} {code : List Instruction} {scope : Scope} {p : Routine}

/-! ## Self-contained blocks -/

/-- It can be made ready to run, its jumps stay inside, and all that it calls is grounded. -/
structure SelfContained (r : Registry) (code : List Instruction) : Prop where
  unique : (attached code).Nodup
  writable : ∀ i ∈ code, ∀ v ∈ i.command.operands, v.isConstant = false
  targets : ∀ i ∈ code, ∀ t, i.target? = some t → t ∈ attached code
  grounded : ∀ i ∈ code, ∀ n ∈ i.callNames, r.Grounded n

/-- No registered function makes `invoke` fail. -/
def Invoke.Safe (r : Registry) (invoke : Invoke) : Prop :=
  ∀ f, r.get? f.name = some f → ∀ vs e, invoke f vs ≠ .failed e

theorem Call.value_ne_failed {invoke : Invoke} (hi : invoke.Safe r) {c : Call}
    (hc : ∀ n ∈ c.names, r.contains n = true) (site : Site) (frame : Frame) (e : Fault) :
    c.value r invoke site frame ≠ .failed e := by
  intro h
  rcases Argument.value_failed _ h with ⟨n, hn, hnone, -⟩ | ⟨f, vs, hf, hv⟩
  · have := hc n hn
    rw [Registry.contains, hnone] at this
    cases this
  · exact hi f hf vs e hv

theorem Routine.mem_of_ofCode (hp : Routine.ofCode code scope = .ok p) {k : Nat} {i : Instruction}
    (hi : p.code[k]? = some i) : i ∈ code := by
  rw [(Routine.ofCode_ok hp).1, List.getElem?_toArray] at hi
  exact List.mem_of_getElem? hi

theorem State.at_first (hne : code ≠ []) {s : State} (hzero : s.pointer = 0)
    (hh : s.halted = false) : s.At code 0 := by
  have hlt : ¬ code.length ≤ 0 := Nat.not_le.mpr (List.length_pos_iff.mpr hne)
  refine ⟨?_, fun _ => hzero⟩
  rw [hh, decide_eq_false hlt]

namespace SelfContained

variable {invoke : Invoke}

theorem stepWith_ne_failed (h : SelfContained r code) (hp : Routine.ofCode code scope = .ok p)
    (hinv : invoke.Safe r) {s s' : State} {e : Fault} : p.stepWith r invoke s ≠ .failed e s' := by
  intro hs
  obtain ⟨i, -, hi, hcause⟩ := Routine.stepWith_failed_cases hs
  have hm := Routine.mem_of_ofCode hp hi
  rcases hcause with ⟨hcost, -⟩ | ⟨-, -, ⟨hx, -⟩ | ⟨f, t, hx, hpos, -⟩⟩
  · obtain ⟨cost, hok⟩ := Registry.exists_instructionCost_iff.mpr (h.grounded i hm)
    rw [hok] at hcost
    cases hcost
  · obtain ⟨c, hc, hv⟩ := Command.execute_failed hx
    refine Call.value_ne_failed hinv (fun n hn => (h.grounded i hm n ?_).contains) _ _ e hv
    rw [Instruction.callNames, Instruction.call?, hc]
    exact hn
  · have ht := h.targets i hm t (Command.execute_jump hx).1
    exact (LabelTable.position?_ofCode_eq_none (Routine.ofCode_ok hp).2.2).mp hpos ht

theorem finishWith_ne_failed (h : SelfContained r code) (hp : Routine.ofCode code scope = .ok p)
    (hinv : invoke.Safe r) (bound : Nat) (s : State) (e : Fault) :
    p.finishWith r invoke bound s ≠ .failed e := by
  intro hs
  induction bound generalizing s with
  | zero => cases hs
  | succ bound ih =>
    rw [Routine.finishWith] at hs
    split at hs
    · cases hs
    · exact ih _ hs
    · next hstep => exact h.stepWith_ne_failed hp hinv hstep
    · cases hs

/-- No step ends the run but the one off the last instruction. -/
theorem pointer_of_stepWith (h : SelfContained r code) (hp : Routine.ofCode code scope = .ok p)
    {s s' : State} {report : Report} (hs : p.stepWith r invoke s = .took report s')
    (hh : s'.halted = true) : s'.pointer = code.length := by
  obtain ⟨i, cost, frame, signal, -, hi, -, hx, hf, -⟩ := Routine.stepWith_took_cases hs
  obtain ⟨hcode, -, hl⟩ := Routine.ofCode_ok hp
  have hsize : p.code.size = code.length := by rw [hcode, List.size_toArray]
  have hlt : s.pointer < code.length := hsize ▸ (Array.getElem?_eq_some_iff.mp hi).1
  cases signal with
  | next =>
    cases hf
    have hle : code.length ≤ s.pointer + 1 := hsize ▸ of_decide_eq_true hh
    exact Nat.le_antisymm hlt hle
  | halt =>
    have ht := h.targets i (Routine.mem_of_ofCode hp hi) .exit (Command.execute_halt hx)
    cases (mem_attached.mp ht).1
  | jump t =>
    rw [Routine.follow] at hf
    cases hpos : p.labels.position? t with
    | none => rw [hpos] at hf; cases hf
    | some k =>
      rw [hpos] at hf
      cases hf
      obtain ⟨-, j, hj, -⟩ := (LabelTable.position?_ofCode hl t k).mp hpos
      have hk := (List.getElem?_eq_some_iff.mp hj).1
      have hle : code.length ≤ k := hsize ▸ of_decide_eq_true hh
      omega

theorem pointer_of_finishWith (h : SelfContained r code) (hp : Routine.ofCode code scope = .ok p)
    {bound : Nat} {s s' : State} (hin : p.Inside s)
    (hs : s.halted = true → s.pointer = code.length)
    (hf : p.finishWith r invoke bound s = .done s') : s'.pointer = code.length := by
  induction bound generalizing s with
  | zero => cases hf
  | succ bound ih =>
    rw [Routine.finishWith] at hf
    split at hf
    · next hstep =>
      cases hf
      exact hs (Routine.halted_of_stepWith hin hstep)
    · next report next hstep =>
      exact ih (Routine.charged_of_stepWith hstep).inside (h.pointer_of_stepWith hp hstep) hf
    · cases hf
    · cases hf

/-- What a run from the first instruction leaves if it ends, every large enough bound finds. -/
theorem finish_of_ends (h : SelfContained r code) (hp : Routine.ofCode code scope = .ok p)
    (hne : code ≠ []) {s : State} (hzero : s.pointer = 0) (hh : s.halted = false) {n : Nat}
    {g : Frame} (he : Ends r code n (0, s.frame) g) :
    ∃ least s', (∀ bound, least ≤ bound → p.finish r bound s = .done s') ∧ s'.frame = g ∧
      s'.pointer = p.code.size := by
  have hsize : p.code.size = code.length := by
    rw [(Routine.ofCode_ok hp).1, List.size_toArray]
  obtain ⟨bound, depth, hfin⟩ := Routine.finishWith_of_ends hp h.grounded he
  obtain ⟨s', hs', rfl⟩ := hfin (max bound (n + 1)) (Nat.le_max_left ..) depth (Nat.le_refl _)
    (max bound (n + 1)) (Nat.le_max_right ..) s (State.at_first hne hzero hh) rfl
  have hle := r.invokeTo_leOn_invoke (max bound (n + 1)) depth (p.Callable r)
  have hdone : p.finish r (max bound (n + 1)) s = .done s' :=
    (Routine.finishWith_le hle (Nat.le_refl _) s).done hs'
  refine ⟨max bound (n + 1), s', fun m hm => (p.finish_le hm s).done hdone, rfl, ?_⟩
  rw [hsize]
  refine h.pointer_of_finishWith hp (.inr ?_) (fun hhalt => ?_) hs'
  · rw [hzero, hsize]
    exact List.length_pos_iff.mpr hne
  · rw [hh] at hhalt
    cases hhalt

theorem finish_of_not_ends (h : SelfContained r code) (hp : Routine.ofCode code scope = .ok p)
    {s : State} (hat : s.At code 0) (he : ¬ ∃ n g, Ends r code n (0, s.frame) g) {bound : Nat}
    (hinv : (r.invoke bound).Safe r) : p.finish r bound s = .unfinished := by
  cases hf : p.finish r bound s with
  | unfinished => rfl
  | done s' =>
    obtain ⟨n, hends⟩ := Routine.ends_of_finishWith hp hat hf
    exact absurd ⟨n, _, hends⟩ he
  | failed e => exact absurd hf (h.finishWith_ne_failed hp hinv bound s e)

end SelfContained

/-! ## The splice of a call -/

namespace Splice

variable {l : Label} {v : Variable} {c : Call} {f : Function} {s : Splice} {n n' : SLanguage.Names}

section
variable (hs : s.Names c f.body)
  (hd : Draws n n' (s.holders ++ s.locals.map (·.2)) (s.finish :: s.labels.map (·.2)))
  (hn : n.Covers ⟨l, .quote v c⟩)
include hs hd hn

theorem placed_block : Placed (s.block l v c f.body) s l v c f.body 0 :=
  ⟨hs, .of_new hd.workNodup hd.works hd.labels hn.vars,
    fun k i hi => by rw [Nat.zero_add]; exact hi⟩

theorem selfContained_block (hr : r.Sound) (hf : r.get? c.name = some f)
    (hv : v.isConstant = false) (hc : ∀ name ∈ c.names, r.contains name = true) :
    SelfContained r (s.block l v c f.body) := by
  have ht : Template r ⟨l, .quote v c⟩ _ _ (s.block l v c f.body) := .quote hf hs
  have hperm := ht.attached_perm hr.regular fun m hm => (hd.labels m hm).isNamed
  refine ⟨ht.nodup_attached hr.regular hd hn, ?_, fun j hj t hjt => ?_, fun j hj name hm => ?_⟩
  · refine ht.writable hr.regular (fun w hw => (hd.works w hw).isConstant) fun u hu => ?_
    rw [List.mem_singleton.mp hu]
    exact hv
  · rcases hs.target_block hj hjt with hm | hdangling
    · exact hperm.mem_iff.mpr (List.mem_append_right _ hm)
    · exact absurd hdangling (hr.regular _ f hf).not_dangling
  · rcases ht.callNames j hj name hm with hm | ⟨a, ha, hcall⟩
    · exact hr.grounded name (hc name hm)
    · exact (hr.grounded a (hc a ha)).call hcall

/-- Where the call has a value, the block comes to its end with the value in `v`. -/
theorem ends_block (hf : r.get? c.name = some f) (hv : v.isConstant = false) {frame : Frame}
    {w : Value} (hw : c.toArgument.Worth r frame w) :
    ∃ m g, Ends r (s.block l v c f.body) m (0, frame) g ∧
      g.get v = w ∧ ∀ u, u ≠ v → ¬ n.NewVar n' u → g.get u = frame.get u := by
  have hx : (Command.quote v c).Executes r frame (frame.set v w) .next :=
    ⟨w, fun call hcall => by cases hcall; exact hw, rfl⟩
  have hreach := (realizes_splice hf (placed_block hs hd hn) hv).next frame _
    (List.forall_mem_nil _) hx
  rw [Nat.zero_add] at hreach
  refine hreach.reaches.ends fun spot hspot => ?_
  obtain ⟨hpc, hleaves, -⟩ := hspot
  refine ⟨0, spot.2, .stop (Nat.le_of_eq hpc.symm), ?_, fun u hu hnew => ?_⟩
  · have hold : v ∉ s.holders ++ s.locals.map (·.2) := fun hm =>
      (hd.works v hm).ne_old (hn.vars v (List.mem_cons_self ..)) rfl
    rw [hleaves v hold, frame.get_set hv, if_pos rfl]
  · rw [hleaves u fun hm => hnew (hd.works u hm), frame.get_set hv, if_neg hu]

end

end Splice

/-! ## Running the block beside evaluating the call -/

/-- A larger bound keeps the value of a call. -/
theorem Registry.evaluate_le {m n : Nat} (hmn : m ≤ n) (site : Site) (frame : Frame) (c : Call) :
    (r.evaluate m site frame c).Le (r.evaluate n site frame c) :=
  Argument.value_le site frame c.toArgument (r.invoke_le hmn _)

/-- What a call is worth, its evaluation finds within every large enough bound. -/
theorem Registry.evaluate_of_worth {c : Call} {frame : Frame} {w : Value}
    (h : c.toArgument.Worth r frame w) (site : Site) :
    ∃ least, ∀ bound, least ≤ bound → r.evaluate bound site frame c = .done w := by
  obtain ⟨bound, depth, hv⟩ := h.exists_bound site
  refine ⟨bound, fun m hm => ?_⟩
  exact (Argument.value_le site frame c.toArgument (r.invokeTo_leOn_invoke m depth _)).done
    (hv m hm depth (Nat.le_refl _))

theorem Registry.evaluate_of_not_worth {c : Call} {frame : Frame}
    (h : ¬ ∃ w, c.toArgument.Worth r frame w) (hc : ∀ n ∈ c.names, r.contains n = true)
    {bound : Nat} (hinv : (r.invoke bound).Safe r) (site : Site) :
    r.evaluate bound site frame c = .unfinished := by
  cases he : r.evaluate bound site frame c with
  | unfinished => rfl
  | done w => exact absurd ⟨w, Argument.worth_of_value he⟩ h
  | failed e => exact absurd he (Call.value_ne_failed hinv hc site frame e)

/-- Either neither the evaluation of the call nor the run from the state ever ends, or both do. Then
the run has left the sequence by its end, `v` has the value of the call, and every other variable
that is not fresh has the value it had. -/
def Registry.Emulates (r : Registry) (v : Variable) (c : Call) (site : Site)
    (fresh : Variable → Prop) (p : Routine) (s : State) : Prop :=
  (∀ bound, r.evaluate bound site s.frame c = .unfinished ∧ p.finish r bound s = .unfinished) ∨
  ∃ w s' least,
    (∀ bound, least ≤ bound →
      r.evaluate bound site s.frame c = .done w ∧ p.finish r bound s = .done s') ∧
    s'.pointer = p.code.size ∧ s'.frame.get v = w ∧
    ∀ u, u ≠ v → ¬ fresh u → s'.frame.get u = s.frame.get u

/-- The functions of a registry as a program that does nothing. -/
def Registry.alone (r : Registry) : Program := { name := "", functions := r }

theorem Registry.invoke_safe (hr : r.alone.isValid = true) (bound : Nat) :
    (r.invoke bound).Safe r :=
  fun f hf vs e he => Program.not_predicts_of_isValid hr e
    (r.alone.foresees_invokeTo bound r.size f vs e hf he)

theorem Splice.emulates_block {l : Label} {v : Variable} {c : Call} {f : Function} {s : Splice}
    {n n' : SLanguage.Names} (hr : r.alone.isValid = true) (hx : r.alone.ExitFree)
    (hf : r.get? c.name = some f) (hs : s.Names c f.body)
    (hd : Draws n n' (s.holders ++ s.locals.map (·.2)) (s.finish :: s.labels.map (·.2)))
    (hn : n.Covers ⟨l, .quote v c⟩) (hv : v.isConstant = false)
    (hc : ∀ name ∈ c.names, r.contains name = true)
    (hp : Routine.ofCode (s.block l v c f.body) scope = .ok p) (site : Site) {start : State}
    (hzero : start.pointer = 0) (hh : start.halted = false) :
    r.Emulates v c site (n.NewVar n') p start := by
  have hsound : r.Sound := (Program.isValid_iff.mp hr).sound hx
  have hself := selfContained_block hs hd hn hsound hf hv hc
  have hplaced := placed_block hs hd hn
  have hne : s.block l v c f.body ≠ [] := by
    refine List.ne_nil_of_length_pos ?_
    rw [hplaced.length_block]
    exact Nat.succ_pos _
  by_cases hw : ∃ w, c.toArgument.Worth r start.frame w
  · obtain ⟨w, hw⟩ := hw
    obtain ⟨m, g, hends, hres, hrest⟩ := ends_block hs hd hn hf hv hw
    obtain ⟨least, s', hfin, rfl, hptr⟩ := hself.finish_of_ends hp hne hzero hh hends
    obtain ⟨least', heval⟩ := Registry.evaluate_of_worth hw site
    refine .inr ⟨w, s', max least least', fun bound hb => ?_, hptr, hres, hrest⟩
    exact ⟨heval bound (by omega), hfin bound (by omega)⟩
  · have hnot : ¬ ∃ m g, Ends r (s.block l v c f.body) m (0, start.frame) g := by
      rintro ⟨m, g, hends⟩
      exact hw (worth_of_ends hf hplaced hsound hself.unique hends)
    have hat := State.at_first hne hzero hh
    exact .inl fun bound => ⟨Registry.evaluate_of_not_worth hw hc (r.invoke_safe hr bound) site,
      hself.finish_of_not_ends hp hat hnot (r.invoke_safe hr bound)⟩

/-- The splice computes the call. The functions and their call graph are valid and have no label at
the exit, the functions named in the call are registered, and the names of the instruction are old.
Then the expansion yields a block, unless there are no more names to draw; and the block can be run,
from its first instruction and with any values in all variables, drawn ones included, as the call is
evaluated. -/
theorem Registry.splice_computes_call {r : Registry} (hr : r.alone.isValid = true)
    (hx : r.alone.ExitFree) {l : Label} {v : Variable} {c : Call} (hv : v.isConstant = false)
    (hc : ∀ name ∈ c.names, r.contains name = true) {n : SLanguage.Names}
    (hn : n.Covers ⟨l, .quote v c⟩) (site : Site) :
    (∃ e n', (r.expand site ⟨l, .quote v c⟩).run n = .error e n' ∧ Exhausted e) ∨
    ∃ block n', (r.expand site ⟨l, .quote v c⟩).run n = .ok (some block) n' ∧
      ∀ scope, ∃ p, Routine.ofCode block scope = .ok p ∧
        ∀ s : State, s.pointer = 0 → s.halted = false →
          ∀ site, r.Emulates v c site (n.NewVar n') p s := by
  cases he : (r.expand site ⟨l, .quote v c⟩).run n with
  | error e n' =>
    refine .inl ⟨e, n', rfl, (Registry.expand_error he).resolve_right ?_⟩
    rintro ⟨v', c', hcmd, hnone, -⟩
    cases hcmd
    have := hc c.name (List.mem_cons_self ..)
    rw [Registry.contains, hnone] at this
    cases this
  | ok b n' =>
    obtain ⟨f, s, hf, rfl, hs, hd⟩ := Registry.expand_quote_ok he
    have hsound : r.Sound := (Program.isValid_iff.mp hr).sound hx
    have hself := Splice.selfContained_block hs hd hn hsound hf hv hc
    refine .inr ⟨_, n', rfl, fun scope => ?_⟩
    obtain ⟨p, hp⟩ := Routine.exists_ofCode hself.unique hself.writable scope
    exact ⟨p, hp, fun start hzero hh site =>
      Splice.emulates_block hr hx hf hs hd hn hv hc hp site hzero hh⟩

/-- `[L4] x1 <- (AND,…)`: the call reads the variable it is for. -/
def inPlace : Instruction := ⟨.named "L4", .quote (.input 1) Demo.composition⟩

/-- Before the first instruction, with 2 in `x1`, 5 in `x2`, and 7 in the three work variables that
the expansion of `inPlace` draws. -/
def laden : State where
  frame := [1, 2, 3].foldl (fun f n => f.set (.work n) 7) (.ofInputs [2, 5])
  pointer := 0
  cycles := 0
  steps := 0
  halted := false

theorem Registry.splice_computes_in_place : Demo.program.functions.alone.isValid = true ∧
    Demo.program.functions.alone.ExitFree ∧
    ∃ block n' p s',
      (Demo.program.functions.expand ⟨.program, 1⟩ inPlace).run (above [inPlace]) =
        .ok (some block) n' ∧
      Routine.ofCode block .program = .ok p ∧
      (∃ bound, p.finish Demo.program.functions bound laden = .done s') ∧
      s'.pointer = p.code.size ∧ s'.frame.get (.input 1) = 1 ∧ s'.frame.get (.input 2) = 5 := by
  have hr : Demo.program.functions.alone.isValid = true := by decide +kernel
  have hx : Demo.program.functions.alone.ExitFree := by decide +kernel
  have hc : ∀ name ∈ Demo.composition.names, Demo.program.functions.contains name = true := by
    decide +kernel
  have hok : ((Demo.program.functions.expand ⟨.program, 1⟩ inPlace).run'
      (above [inPlace])).isSome = true := by decide +kernel
  have heval : Demo.program.functions.evaluate 20 ⟨.program, 1⟩ laden.frame Demo.composition =
      .done 1 := by decide +kernel
  rcases splice_computes_call hr hx rfl hc ((above_spec [inPlace]).2 _ (List.mem_cons_self ..))
    ⟨.program, 1⟩ with ⟨e, n', he, -⟩ | ⟨block, n', hb, hrun⟩
  · change (Demo.program.functions.expand ⟨.program, 1⟩ inPlace).run _ = _ at he
    delta EStateM.run' at hok
    rw [he] at hok
    cases hok
  · obtain ⟨p, hp, hemulates⟩ := hrun .program
    rcases hemulates laden rfl rfl ⟨.program, 1⟩ with hnever | ⟨w, s', least, hs, hptr, hv, hrest⟩
    · rw [(hnever 20).1] at heval
      cases heval
    · have hmore := (Registry.evaluate_le (Nat.le_max_left 20 least) _ _ _).done heval
      obtain ⟨hw, hdone⟩ := hs (max 20 least) (Nat.le_max_right ..)
      rw [hmore] at hw
      cases hw
      refine ⟨hr, hx, block, n', p, s', hb, hp, ⟨_, hdone⟩, hptr, hv, ?_⟩
      have hold : ¬ (above [inPlace]).NewVar n' (.input 2) := by
        rintro ⟨k, hk, -⟩
        cases hk
      rw [hrest (.input 2) (by decide) hold]
      decide +kernel

end SLanguage
