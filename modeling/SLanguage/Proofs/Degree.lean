import Mathlib.Order.Nat
import SLanguage.Proofs.Blocks
import SLanguage.Proofs.Cost

/-!
# The degree is exact

`Degree.plain val i` is the degree of an instruction when the bodies have the degrees `val`. The
memoised degree of a sequence is the largest plain one, if every function called is grounded
(`sequenceDegree_fresh`). A block has exactly one degree less than the instruction that it replaces
(`Template.plain_block`), because drawn variables are no operands of it and renaming keeps different
variables different. So each pass takes one degree off, and the number of passes to a basic sequence
is the degree.
-/

namespace SLanguage

open MemoM

variable {I : Memo Nat → Prop} {known : String → Prop} {err : Fault → Prop}
  {val val' : String → Nat}

/-! ## Plain degrees -/

namespace Argument

mutual

/-- The degree of an argument when the bodies have the degrees `val`. -/
def plainDegree (val : String → Nat) : Argument → Nat
  | leaf _ => 0
  | call name arguments => 1 + listPlainDegree val (max 2 (val name)) arguments

def listPlainDegree (val : String → Nat) (inner : Nat) : List Argument → Nat
  | [] => inner
  | a :: rest => listPlainDegree val (max inner (a.plainDegree val)) rest

end

theorem listPlainDegree_le_iff {as : List Argument} {inner d : Nat} :
    listPlainDegree val inner as ≤ d ↔ inner ≤ d ∧ ∀ a ∈ as, a.plainDegree val ≤ d := by
  induction as generalizing inner with
  | nil => simp [listPlainDegree]
  | cons a rest ih =>
    rw [listPlainDegree, ih, Nat.max_le, List.forall_mem_cons, and_assoc]

theorem ensures_listDegree {body : String → MemoM Nat Nat} {as : List Argument}
    (h : ∀ a ∈ as, Ensures I (fun d => (∀ n ∈ a.names, known n) ∧ d = a.plainDegree val) err
      (a.degree body)) (inner : Nat) :
    Ensures I (fun d => (∀ n ∈ listNames as, known n) ∧ d = listPlainDegree val inner as) err
      (listDegree body inner as) := by
  induction as generalizing inner with
  | nil => exact ensures_pure ⟨by simp [listNames], rfl⟩
  | cons a rest ih =>
    refine (h a (by simp)).bind ?_
    rintro _ ⟨ha, rfl⟩
    refine (ih (fun b hb => h b (by simp [hb])) _).mono (fun d hd => ⟨?_, hd.2⟩) fun _ he => he
    intro n hn
    exact (List.mem_append.mp hn).elim (ha n) (hd.1 n)

theorem ensures_degree {body : String → MemoM Nat Nat} {a : Argument}
    (h : ∀ n ∈ a.names, Ensures I (fun d => known n ∧ d = val n) err (body n)) :
    Ensures I (fun d => (∀ n ∈ a.names, known n) ∧ d = a.plainDegree val) err (a.degree body) := by
  induction a with
  | leaf v => exact ensures_pure ⟨by simp [names], rfl⟩
  | call name arguments ih =>
    have hs : ∀ a ∈ arguments, Ensures I _ err (a.degree body) := fun a ha =>
      ih a ha fun n hn => h n (List.mem_cons_of_mem _ (mem_listNames.mpr ⟨a, ha, hn⟩))
    refine (h name (by simp [names])).bind ?_
    rintro _ ⟨hn, rfl⟩
    refine (ensures_listDegree hs _).bind ?_
    rintro _ ⟨hns, rfl⟩
    exact ensures_pure ⟨by simpa [names] using ⟨hn, hns⟩, rfl⟩

theorem plainDegree_congr {a : Argument} (h : ∀ n ∈ a.names, val n = val' n) :
    a.plainDegree val = a.plainDegree val' := by
  induction a with
  | leaf v => rfl
  | call name arguments ih =>
    have hs : ∀ a ∈ arguments, a.plainDegree val = a.plainDegree val' := fun a ha =>
      ih a ha fun n hn => h n (List.mem_cons_of_mem _ (mem_listNames.mpr ⟨a, ha, hn⟩))
    rw [plainDegree, plainDegree, h name (by simp [names])]
    refine congrArg _ (eq_of_forall_ge_iff fun d => ?_)
    rw [listPlainDegree_le_iff, listPlainDegree_le_iff]
    exact and_congr_right fun _ => forall₂_congr fun a ha => by rw [hs a ha]

theorem plainDegree_rename (val : String → Nat) (f : Variable → Variable) (a : Argument) :
    (a.rename f).plainDegree val = a.plainDegree val := by
  induction a with
  | leaf v => rfl
  | call name arguments ih =>
    rw [rename, plainDegree, plainDegree, renameList_eq]
    refine congrArg _ (eq_of_forall_ge_iff fun d => ?_)
    rw [listPlainDegree_le_iff, listPlainDegree_le_iff, List.forall_mem_map]
    exact and_congr_right fun _ => forall₂_congr fun a ha => by rw [ih a ha]

end Argument

namespace Degree

/-- The degree of an instruction when the bodies have the degrees `val`. -/
def plain (val : String → Nat) (i : Instruction) : Nat :=
  match i.command with
  | .increase _ | .decrease _ | .neutral _ | .jumpNotZero _ _ => 0
  | .zero _ | .goto _ => 1
  | .assign v w => if v = w then 1 else 2
  | .assignConstant _ _ | .jumpZero _ _ => 2
  | .jumpEqualVariable v w _ => if v = w then 2 else 3
  | .jumpEqualConstant _ _ _ => 3
  | .quote _ c => c.toArgument.plainDegree val
  | .jumpEqualCall _ c _ => 1 + max (c.toArgument.plainDegree val) 3

/-- The largest degree in a sequence. -/
def plainSequence (val : String → Nat) (code : List Instruction) : Nat :=
  code.foldl (fun d i => max d (plain val i)) 0

def plainBody (val : String → Nat) (f : Function) : Nat := plainSequence val f.body

theorem plainSequence_le_iff {code : List Instruction} {d : Nat} :
    plainSequence val code ≤ d ↔ ∀ i ∈ code, plain val i ≤ d := by
  have fold : ∀ inner, code.foldl (fun d i => max d (plain val i)) inner ≤ d ↔
      inner ≤ d ∧ ∀ i ∈ code, plain val i ≤ d := by
    induction code with
    | nil => simp
    | cons i rest ih =>
      intro inner
      rw [List.foldl_cons, ih, Nat.max_le, List.forall_mem_cons, and_assoc]
  rw [plainSequence, fold]
  exact and_iff_right (Nat.zero_le d)

theorem plain_congr {i : Instruction} (h : ∀ n ∈ i.callNames, val n = val' n) :
    plain val i = plain val' i := by
  obtain ⟨l, command⟩ := i
  cases command with
  | quote v c => exact Argument.plainDegree_congr h
  | jumpEqualCall v c t =>
    have := Argument.plainDegree_congr (a := c.toArgument) h
    simp only [plain, this]
  | _ => rfl

theorem plainBody_local : Registry.Local plainBody := by
  intro val val' f h
  refine eq_of_forall_ge_iff fun d => ?_
  rw [plainBody, plainBody, plainSequence_le_iff, plainSequence_le_iff]
  refine forall₂_congr fun i hi => ?_
  rw [plain_congr fun n hn => h n (mem_calleesOf.mpr ⟨i, hi, hn⟩)]

theorem ensures_ofInstruction {callee : Site → String → MemoM Nat Nat} {site : Site}
    {i : Instruction}
    (h : ∀ n ∈ i.callNames, Ensures I (fun d => known n ∧ d = val n) err (callee site n)) :
    Ensures I (fun d => (∀ n ∈ i.callNames, known n) ∧ d = plain val i) err
      (ofInstruction callee site i) := by
  obtain ⟨l, command⟩ := i
  cases command with
  | quote v c => exact Argument.ensures_degree h
  | jumpEqualCall v c t =>
    refine (Argument.ensures_degree (a := c.toArgument) h).bind ?_
    rintro _ ⟨hns, rfl⟩
    exact ensures_pure ⟨hns, rfl⟩
  | _ => exact ensures_pure ⟨List.forall_mem_nil _, rfl⟩

theorem ensures_ofSequence {callee : Site → String → MemoM Nat Nat} {scope : Scope}
    {code : List Instruction} (h : ∀ site n, CalledAt scope code site n →
      Ensures I (fun d => known n ∧ d = val n) err (callee site n)) :
    Ensures I (fun d => (∀ n ∈ calleesOf code, known n) ∧ d = plainSequence val code) err
      (ofSequence callee scope code) := by
  refine ensures_sequence (fun k i hi d => ?_) 0
  refine (ensures_ofInstruction fun n hn => h _ n ⟨k, i, hi, rfl, hn⟩).bind ?_
  rintro _ ⟨hns, rfl⟩
  exact ensures_pure ⟨hns, rfl⟩

theorem ofBody_follows : ofBody.Follows plainBody :=
  fun _ _ _ _ _ _ h => ensures_ofSequence h

end Degree

namespace Registry

variable {r : Registry}

/-- A sequence has a degree exactly if all that it calls is grounded. -/
theorem sequenceDegree_fresh (hval : r.Solves Degree.plainBody val) (scope : Scope)
    (code : List Instruction) :
    ((∀ n ∈ calleesOf code, r.Grounded n) ∧
      (r.sequenceDegree scope code).fresh = .ok (Degree.plainSequence val code)) ∨
    (¬ (∀ n ∈ calleesOf code, r.Grounded n) ∧
      ∃ e, (r.sequenceDegree scope code).fresh = .error e) := by
  have h : Ensures (r.Holds val)
      (fun d => (∀ n ∈ calleesOf code, r.Grounded n) ∧ d = Degree.plainSequence val code)
      (fun _ => ∃ n ∈ calleesOf code, ¬ r.Grounded n) (r.sequenceDegree scope code) := by
    refine Degree.ensures_ofSequence fun site n hn => ?_
    refine (analyse_ensures Degree.ofBody_follows hval [] site n (by simp)).mono (fun _ h => h) ?_
    exact fun e he => ⟨n, hn.mem_calleesOf, he.not_grounded⟩
  cases hd : (r.sequenceDegree scope code).fresh with
  | ok d =>
    obtain ⟨hg, rfl⟩ := h.fresh_ok (holds_empty val) hd
    exact .inl ⟨hg, rfl⟩
  | error e =>
    obtain ⟨n, hn, hng⟩ := h.fresh_error (holds_empty val) hd
    exact .inr ⟨fun hg => hng (hg n hn), e, rfl⟩

end Registry

/-! ## One degree less -/

namespace Degree

theorem plain_eq_zero_iff {i : Instruction} : plain val i = 0 ↔ i.isBasic = true := by
  obtain ⟨l, command⟩ := i
  cases command with
  | quote v c =>
    refine iff_of_false ?_ Bool.false_ne_true
    change 1 + Argument.listPlainDegree val _ c.arguments ≠ 0
    omega
  | jumpEqualCall v c t =>
    refine iff_of_false ?_ Bool.false_ne_true
    change 1 + max _ 3 ≠ 0
    omega
  | assign v w =>
    refine iff_of_false ?_ Bool.false_ne_true
    simp only [plain]; split <;> decide
  | jumpEqualVariable v w t =>
    refine iff_of_false ?_ Bool.false_ne_true
    simp only [plain]; split <;> decide
  | increase _ | decrease _ | neutral _ | jumpNotZero _ _ => exact iff_of_true rfl rfl
  | zero _ | goto _ | assignConstant _ _ | jumpZero _ _ | jumpEqualConstant _ _ _ =>
    exact iff_of_false (by simp [plain]) Bool.false_ne_true

theorem plain_rename {f : Variable → Variable} {g : Label → Label} {i : Instruction}
    (h : ∀ v ∈ i.vars, ∀ w ∈ i.vars, f v = f w → v = w) :
    plain val (i.rename f g) = plain val i := by
  obtain ⟨l, command⟩ := i
  cases command with
  | assign v w =>
    have e : f v = f w ↔ v = w := ⟨h v (.head _) w (.tail _ (.head _)), congrArg f⟩
    simp only [Instruction.rename, Command.rename, plain, e]
  | jumpEqualVariable v w t =>
    have e : f v = f w ↔ v = w := ⟨h v (.head _) w (.tail _ (.head _)), congrArg f⟩
    simp only [Instruction.rename, Command.rename, plain, e]
  | quote v c => exact Argument.plainDegree_rename val f c.toArgument
  | jumpEqualCall v c t =>
    have e := Argument.plainDegree_rename val f c.toArgument
    exact congrArg (fun d => 1 + max d 3) e
  | _ => rfl

/-- The command that loads an argument has its degree, but at least that of a copy counts. -/
theorem plain_load_le_iff {l : Label} {holder : Variable} {a : Argument} {d : Nat} (hd : 2 ≤ d) :
    plain val ⟨l, Splice.load holder a⟩ ≤ d ↔ a.plainDegree val ≤ d := by
  cases a with
  | call name arguments => exact Iff.rfl
  | leaf v =>
    refine iff_of_true ?_ (Nat.zero_le d)
    cases v with
    | constant k => exact hd
    | _ => simp only [Splice.load, plain]; split <;> omega

end Degree

variable {r : Registry} {i : Instruction} {works : List Variable} {labels : List Label}
  {block : List Instruction}

theorem Splice.Names.plain_block {s : Splice} {c : Call} {body : List Instruction}
    (hs : s.Names c body) (hnd : (s.holders ++ s.locals.map (·.2)).Nodup) {v : Variable}
    (hw : ∀ w ∈ s.holders ++ s.locals.map (·.2), w.isConstant = false ∧ w ≠ v)
    (hval : val c.name = Degree.plainSequence val body) (l : Label) (d : Nat) :
    (∀ j ∈ s.block l v c body, Degree.plain val j ≤ d) ↔
      c.toArgument.plainDegree val ≤ d + 1 := by
  have hcopy : ∀ k ∈ body, Degree.plain val (k.rename s.renameVariable s.renameLabel) =
      Degree.plain val k := fun k hk => Degree.plain_rename fun v hv w hw' =>
    hs.renameVariable_injOn hnd (fun w hw' => (hw w hw').1)
      (inPlay_of_mem hk hv) (inPlay_of_mem hk hw')
  have hanswer : Degree.plain val ⟨s.finish, .assign v (s.renameVariable .result)⟩ = 2 := by
    have hne := (hw _ (hs.renameVariable_mem (mem_varsOf.mpr ⟨rfl, .inl rfl⟩))).2
    exact if_neg fun e => hne e.symm
  rw [Call.toArgument, Argument.plainDegree, Nat.add_comm, Nat.add_le_add_iff_right,
    Argument.listPlainDegree_le_iff, Nat.max_le, hval, Degree.plainSequence_le_iff]
  constructor
  · intro h
    have hd : 2 ≤ d := hanswer ▸ h _ (hs.answer_mem l v)
    refine ⟨⟨hd, fun k hk => ?_⟩, fun a ha => ?_⟩
    · rw [← hcopy k hk]
      exact h _ (hs.copy_subset l v (List.mem_map.mpr ⟨k, hk, rfl⟩))
    · obtain ⟨holder, -, j, hj, e⟩ := hs.exists_load ha l v
      have := h j hj
      rw [show j = ⟨j.label, j.command⟩ from rfl, e] at this
      exact (Degree.plain_load_le_iff hd).mp this
  · rintro ⟨⟨hd, hbody⟩, hargs⟩ j hj
    rcases hs.mem_block hj with ⟨-, ⟨holder, -, a, ha, e⟩ | ⟨z, -, e⟩⟩ | ⟨k, hk, rfl⟩ | rfl
    · rw [show j = ⟨j.label, j.command⟩ from rfl, e]
      exact (Degree.plain_load_le_iff hd).mpr (hargs a ha)
    · rw [show j = ⟨j.label, j.command⟩ from rfl, e]
      exact Nat.le_of_succ_le hd
    · rw [hcopy k hk]
      exact hbody k hk
    · rw [hanswer]
      exact hd

/-- A block has one degree less than its instruction. -/
theorem Template.plain_block (h : Template r i works labels block) (hd : Drawn i works labels)
    (hval : r.Solves Degree.plainBody val) (hg : ∀ n ∈ i.callNames, r.Grounded n) (d : Nat) :
    (∀ j ∈ block, Degree.plain val j ≤ d) ↔ Degree.plain val i ≤ d + 1 := by
  have fresh {w v : Variable} (hm : w ∈ works) (hv : v ∈ i.vars) : w ≠ v :=
    fun e => hd.new w hm (e ▸ hv)
  cases h with
  | basic hb =>
    rw [Degree.plain_eq_zero_iff.mpr hb]
    simp [Degree.plain_eq_zero_iff.mpr hb]
  | @quote l x c f s hf hs =>
    refine hs.plain_block hd.nodup
      (fun w hm => ⟨hd.isConstant hm, fresh hm (List.mem_cons_self ..)⟩) ?_ l d
    exact hval _ f (hg _ (List.mem_cons_self ..)) hf
  | assignConstant =>
    constructor
    · exact fun h => Nat.succ_le_succ (h _ (List.mem_cons_self ..))
    · exact fun h => Block.forall_mem_assignConstant (Nat.le_of_succ_le_succ h) (Nat.zero_le d)
  | @jumpEqualConstant l target skip v z k =>
    have e : Degree.plain val ⟨l, .assign z v⟩ = 2 :=
      if_neg (fresh (List.mem_singleton.mpr rfl) (List.mem_singleton.mpr rfl))
    constructor
    · exact fun h => Nat.succ_le_succ (e ▸ h _ (List.mem_cons_self ..))
    · intro h
      have hd : 2 ≤ d := Nat.le_of_succ_le_succ h
      exact Block.forall_mem_jumpEqualConstant (e ▸ hd) hd (Nat.zero_le d) (Nat.zero_le d)
        (Nat.le_of_succ_le hd) (Nat.zero_le d)
  | @jumpEqualVariable l target differ loop finish v w z z' hne =>
    have h1 : z ≠ v := fresh (.head _) (.head _)
    have h2 : z' ≠ w := fresh (.tail _ (.head _)) (.tail _ (.head _))
    simp only [Block.jumpEqualVariable, List.mem_cons, List.not_mem_nil, or_false, Degree.plain,
      forall_eq_or_imp, forall_eq, if_neg h1, if_neg h2, if_neg hne]
    omega
  | @jumpEqualCall l target v z c =>
    have h1 : v ≠ z := (fresh (.head _) (.head _)).symm
    simp only [Block.jumpEqualCall, List.mem_cons, List.not_mem_nil, or_false, Degree.plain,
      forall_eq_or_imp, forall_eq, if_neg h1]
    omega
  | assign hne => simp [Block.assign, Degree.plain, hne]
  | _ =>
    simp [Block.zero, Block.goto, Block.assignSelf, Block.jumpZero, Block.jumpEqualSelf,
      Degree.plain]

/-- If all that a block calls is grounded, so is all that its instruction calls. -/
theorem Template.grounded (h : Template r i works labels block)
    (hg : ∀ j ∈ block, ∀ n ∈ j.callNames, r.Grounded n) : ∀ n ∈ i.callNames, r.Grounded n := by
  cases h with
  | basic _ => exact hg i (List.mem_singleton.mpr rfl)
  | @quote l x c f s hf hs =>
    intro n hn
    rcases List.mem_cons.mp hn with rfl | hn
    · refine .intro hf fun g hgm => ?_
      obtain ⟨k, hk, hn⟩ := mem_calleesOf.mp hgm
      refine hg _ (hs.copy_subset l x (List.mem_map.mpr ⟨k, hk, rfl⟩)) g ?_
      rwa [Instruction.callNames_rename]
    · obtain ⟨a, ha, hn⟩ := Argument.mem_listNames.mp hn
      obtain ⟨holder, -, j, hj, e⟩ := hs.exists_load ha l x
      refine hg j hj n ?_
      cases a with
      | leaf v => cases hn
      | call name arguments =>
        rw [Instruction.callNames, Instruction.call?, e]
        exact hn
  | jumpEqualCall => exact hg ⟨_, .quote _ _⟩ (List.mem_cons_self ..)
  | _ => exact List.forall_mem_nil _

/-! ## Passes -/

def Registry.GroundedIn (r : Registry) (code : List Instruction) : Prop :=
  ∀ i ∈ code, ∀ n ∈ i.callNames, r.Grounded n

theorem Registry.groundedIn_iff {code : List Instruction} :
    r.GroundedIn code ↔ ∀ n ∈ calleesOf code, r.Grounded n := by
  constructor
  · intro h n hn
    obtain ⟨i, hi, hn⟩ := mem_calleesOf.mp hn
    exact h i hi n hn
  · exact fun h i hi n hn => h n (mem_calleesOf.mpr ⟨i, hi, hn⟩)

namespace Pieces

variable {n n' : SLanguage.Names} {ps : List Piece}

theorem groundedIn (hp : Pieces r n n' ps) (h : r.GroundedIn (ps.map (·.instruction))) :
    r.GroundedIn (ps.flatMap (·.block)) := by
  intro j hj m hm
  obtain ⟨p, hps, hj⟩ := List.mem_flatMap.mp hj
  have hi := h p.instruction (List.mem_map.mpr ⟨p, hps, rfl⟩)
  rcases (hp.template hps).callNames j hj m hm with hm | ⟨a, ha, hc⟩
  · exact hi m hm
  · exact (hi a ha).call hc

theorem groundedIn_of_blocks (hp : Pieces r n n' ps) (h : r.GroundedIn (ps.flatMap (·.block))) :
    r.GroundedIn (ps.map (·.instruction)) := by
  intro i hi
  obtain ⟨p, hm, rfl⟩ := List.mem_map.mp hi
  exact (hp.template hm).grounded fun j hj => h j (List.mem_flatMap.mpr ⟨p, hm, hj⟩)

theorem plainSequence_blocks (hp : Pieces r n n' ps) (hval : r.Solves Degree.plainBody val)
    (hv : n.CoversVars (ps.map (·.instruction))) (hg : r.GroundedIn (ps.map (·.instruction))) :
    Degree.plainSequence val (ps.flatMap (·.block)) =
      Degree.plainSequence val (ps.map (·.instruction)) - 1 := by
  refine eq_of_forall_ge_iff fun d => ?_
  rw [Degree.plainSequence_le_iff, Nat.sub_le_iff_le_add, Degree.plainSequence_le_iff,
    List.forall_mem_flatMap, List.forall_mem_map]
  refine forall₂_congr fun p hm => ?_
  exact (hp.template hm).plain_block (hp.drawn hv hm) hval
    (hg _ (List.mem_map.mpr ⟨p, hm, rfl⟩)) d

end Pieces

theorem Snapshot.isBasic_iff (val : String → Nat) {s : Snapshot} :
    s.isBasic = true ↔ Degree.plainSequence val s.instructions = 0 := by
  rw [isBasic, List.all_eq_true, ← Nat.le_zero, Degree.plainSequence_le_iff]
  refine forall₂_congr fun i _ => ?_
  rw [Nat.le_zero, Degree.plain_eq_zero_iff]

namespace Registry

variable {scope : Scope} {n n' : SLanguage.Names}

/-- Each pass takes one degree off, until none is left. -/
theorem passes_degree (hval : r.Solves Degree.plainBody val) {degree : Nat} {s s' : Snapshot}
    (hv : n.CoversVars s.instructions) (hg : r.GroundedIn s.instructions)
    (h : (r.passes scope degree s).run n = .ok s' n') :
    s'.degree = s.degree + min degree (Degree.plainSequence val s.instructions) ∧
      Degree.plainSequence val s'.instructions =
        Degree.plainSequence val s.instructions - degree ∧
      r.GroundedIn s'.instructions := by
  induction degree generalizing n s with
  | zero => cases h; simp [hg]
  | succ degree ih =>
    rw [passes] at h
    split at h
    · next hb => cases h; simp [(Snapshot.isBasic_iff val).mp hb, hg]
    · next hb =>
      obtain ⟨s1, n1, h1, h⟩ := FreshM.bind_ok h
      obtain ⟨ps, hp, hi, hblock, hd⟩ := Snapshot.pass_ok h1
      rw [← hi] at hv hg
      have hdeg := hp.plainSequence_blocks hval hv hg
      have hpos : Degree.plainSequence val s.instructions ≠ 0 :=
        fun e => hb ((Snapshot.isBasic_iff val).mpr e)
      rw [← hblock, hi] at hdeg
      obtain ⟨e1, e2, e3⟩ := ih (hblock ▸ hp.coversVars hv) (hblock ▸ hp.groundedIn hg) h
      exact ⟨by omega, by omega, e3⟩

/-- Passes that end in a basic sequence began with grounded calls. -/
theorem groundedIn_of_passes {degree : Nat} {s s' : Snapshot}
    (h : (r.passes scope degree s).run n = .ok s' n') (hb : s'.isBasic = true) :
    r.GroundedIn s.instructions := by
  have basic {t : Snapshot} (ht : t.isBasic = true) : r.GroundedIn t.instructions := by
    intro i hi m hm
    have := List.all_eq_true.mp ht i hi
    obtain ⟨l, command⟩ := i
    cases command with
    | quote | jumpEqualCall => cases this
    | _ => cases hm
  induction degree generalizing n s with
  | zero => cases h; exact basic hb
  | succ degree ih =>
    rw [passes] at h
    split at h
    · cases h; exact basic hb
    · obtain ⟨s1, n1, h1, h⟩ := FreshM.bind_ok h
      obtain ⟨ps, hp, hi, hblock, -⟩ := Snapshot.pass_ok h1
      exact hi ▸ hp.groundedIn_of_blocks (hblock ▸ ih h)

theorem passes_of_isBasic {s : Snapshot} (hb : s.isBasic = true) (degree : Nat) :
    r.passes scope degree s = pure s := by
  cases degree with
  | zero => rfl
  | succ degree => rw [passes, if_pos hb]

theorem passes_add (a b : Nat) (s : Snapshot) :
    r.passes scope (a + b) s = r.passes scope a s >>= r.passes scope b := by
  induction a generalizing s with
  | zero => rw [Nat.zero_add, passes, pure_bind]
  | succ a ih =>
    by_cases hb : s.isBasic = true
    · rw [passes_of_isBasic hb, passes_of_isBasic hb, pure_bind, passes_of_isBasic hb]
    · rw [Nat.succ_add, passes, passes, if_neg hb, if_neg hb, bind_assoc]
      exact bind_congr ih

/-- The way to a degree leads through every smaller one. -/
theorem exists_expandTo_of_le {code : List Instruction} {d d' : Nat} (hd : d ≤ d') {s' : Snapshot}
    (h : r.expandTo scope code d' = .ok s') :
    ∃ s n n', r.expandTo scope code d = .ok s ∧ (r.passes scope (d' - d) s).run n = .ok s' n' := by
  obtain ⟨n', h⟩ := expandTo_ok h
  rw [← Nat.add_sub_cancel' hd, passes_add] at h
  obtain ⟨s, n, hs, h⟩ := FreshM.bind_ok h
  exact ⟨s, n, n', by rw [expandTo, hs], h⟩

theorem expandTo_add_of_isBasic {code : List Instruction} {a : Nat}
    (h : ∀ s, r.expandTo scope code a = .ok s → s.isBasic = true) (b : Nat) :
    r.expandTo scope code (a + b) = r.expandTo scope code a := by
  unfold expandTo at h ⊢
  rw [passes_add, EStateM.run_bind]
  cases he : (r.passes scope a (.ofCode code)).run (.above code) with
  | error e n1 => rfl
  | ok s n1 =>
    rw [he] at h
    simp only [passes_of_isBasic (h s rfl), EStateM.run_pure]

/-- A sequence has a degree when its calls are grounded, and no other than its plain degree. -/
theorem sequenceDegree_eq_ok_iff (hval : r.Solves Degree.plainBody val) {code : List Instruction}
    {m : Nat} : (r.sequenceDegree scope code).fresh = .ok m ↔
      r.GroundedIn code ∧ Degree.plainSequence val code = m := by
  rw [groundedIn_iff]
  rcases sequenceDegree_fresh hval scope code with ⟨hg, e⟩ | ⟨hg, e, he⟩
  · rw [e, Except.ok.injEq]
    exact (and_iff_right hg).symm
  · rw [he]
    exact iff_of_false (fun h => by cases h) fun h => hg h.1

/-- What `degree` passes leave of the degree. -/
theorem expandTo_degree (hval : r.Solves Degree.plainBody val) {code : List Instruction}
    (hg : r.GroundedIn code) {degree : Nat} {s : Snapshot}
    (h : r.expandTo scope code degree = .ok s) :
    s.degree = min degree (Degree.plainSequence val code) ∧
      Degree.plainSequence val s.instructions = Degree.plainSequence val code - degree ∧
      r.GroundedIn s.instructions := by
  obtain ⟨n', h⟩ := expandTo_ok h
  have hcode := Snapshot.instructions_ofCode code
  have hcover : (Names.above code).CoversVars (Snapshot.ofCode code).instructions := by
    rw [hcode]
    exact fun i hi => ((Names.above_spec code).2 i hi).vars
  obtain ⟨hd, hrest⟩ := passes_degree hval hcover (hcode.symm ▸ hg) h
  rw [hcode] at hd hrest
  exact ⟨hd.trans (Nat.zero_add _), hrest⟩

theorem groundedIn_of_expandTo {code : List Instruction} {degree : Nat} {s : Snapshot}
    (h : r.expandTo scope code degree = .ok s) (hb : s.isBasic = true) : r.GroundedIn code := by
  obtain ⟨n', h⟩ := expandTo_ok h
  have := groundedIn_of_passes h hb
  rwa [Snapshot.instructions_ofCode] at this

/-- The degree of a sequence is the number of passes after which it is basic. -/
theorem sequenceDegree_exact (r : Registry) (scope : Scope) (code : List Instruction) :
    (∀ m, (r.sequenceDegree scope code).fresh = .ok m →
      (∀ d s, r.expandTo scope code d = .ok s →
        s.degree = min d m ∧
        (r.sequenceDegree scope s.instructions).fresh = .ok (m - min d m) ∧
        (s.isBasic = true ↔ m ≤ d)) ∧
      ∀ d, m ≤ d → r.expandTo scope code d = r.expandTo scope code m) ∧
    (∀ d s, r.expandTo scope code d = .ok s → s.isBasic = true →
      ∃ m, (r.sequenceDegree scope code).fresh = .ok m ∧ m ≤ d) := by
  obtain ⟨val, hval⟩ := r.exists_solves Degree.plainBody_local
  refine ⟨fun m hm => ?_, fun d s h hb => ?_⟩
  · obtain ⟨hg, rfl⟩ := (sequenceDegree_eq_ok_iff hval).mp hm
    have hexact : ∀ d s, r.expandTo scope code d = .ok s →
        s.degree = min d (Degree.plainSequence val code) ∧
        (r.sequenceDegree scope s.instructions).fresh =
          .ok (Degree.plainSequence val code - min d (Degree.plainSequence val code)) ∧
        (s.isBasic = true ↔ Degree.plainSequence val code ≤ d) := by
      intro d s h
      obtain ⟨hd, hleft, hg'⟩ := expandTo_degree hval hg h
      rw [sequenceDegree_eq_ok_iff hval, Snapshot.isBasic_iff val, hleft]
      exact ⟨hd, ⟨hg', by omega⟩, by omega⟩
    refine ⟨hexact, fun d hd => ?_⟩
    obtain ⟨k, rfl⟩ := Nat.exists_eq_add_of_le hd
    exact expandTo_add_of_isBasic (fun s h => (hexact _ s h).2.2.mpr (Nat.le_refl _)) k
  · have hg := groundedIn_of_expandTo h hb
    refine ⟨_, (sequenceDegree_eq_ok_iff hval).mpr ⟨hg, rfl⟩, ?_⟩
    have hzero := (Snapshot.isBasic_iff val).mp hb
    have hleft := (expandTo_degree hval hg h).2.1
    omega

end Registry

end SLanguage
