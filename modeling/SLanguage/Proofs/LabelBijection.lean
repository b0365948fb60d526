import SLanguage.Proofs.Legality
import SLanguage.Proofs.Prediction

/-!
# Label tables are one to one

The two look-ups of a table are inverse to each other (`LabelTable.OneToOne`). Every insertion keeps
that, accepted or refused, so it holds of the table of a sequence and of whatever a caller makes of
it. The table of a sequence pairs exactly the named labels with their positions. If there is none,
the fault points at the first row that repeats a label (`FirstRepeat`), and it is what the check
reports first for that sequence.
-/

namespace SLanguage

/-- The label is a name, and the instruction at the position carries it. -/
def LabelledAt (code : List Instruction) (l : Label) (position : Nat) : Prop :=
  l.isNamed = true ∧ ∃ i, code[position]? = some i ∧ i.label = l

/-- The row `second` is the first that repeats a label of an earlier row, and `first` is the first
row with that label. -/
structure FirstRepeat (code : List Instruction) (l : Label) (first second : Nat) : Prop where
  lt : first < second
  first_labelled : LabelledAt code l first
  second_labelled : LabelledAt code l second
  first_least : ∀ j, LabelledAt code l j → first ≤ j
  second_least : ∀ m j k, j < k → LabelledAt code m j → LabelledAt code m k → second ≤ k

/-- The sequence that a fault belongs to. -/
def Fault.scope? : Fault → Option Scope
  | .unresolvedLabel _ site | .unknownFunction _ site => some site.scope
  | .malformedArgument _ site | .invalidOperand _ site => some site.scope
  | .duplicateLabel _ scope _ _ => some scope
  | .recursiveFunction _ | .namesExhausted _ | .unsupportedOperation _ _ _ => none

namespace LabelTable

variable {t t' : LabelTable} {l : Label} {p : Nat} {code : List Instruction} {scope : Scope}

/-- One position to a label and one label to a position. -/
def OneToOne (t : LabelTable) : Prop := ∀ l p, t.labelAt? p = some l ↔ t.position? l = some p

/-- The label or the position is paired already. -/
def Occupied (t : LabelTable) (l : Label) (p : Nat) : Prop :=
  (∃ q, t.position? l = some q) ∨ ∃ m, t.labelAt? p = some m

/-- The table after an attempt to insert a pair. -/
def offer (t : LabelTable) (pair : Label × Nat) : LabelTable :=
  (t.insert? pair.1 pair.2).getD t

/-- The table after one attempt after the other. -/
def offers (t : LabelTable) (pairs : List (Label × Nat)) : LabelTable := pairs.foldl offer t

/-- An insertion is refused exactly if its label or its position is paired. It then leaves the table
as it is, and else adds its pair and nothing more. -/
structure Guarded (t : LabelTable) : Prop where
  refused (l : Label) (p : Nat) : t.insert? l p = none ↔ t.Occupied l p
  unchanged (l : Label) (p : Nat) : t.Occupied l p → t.offer (l, p) = t
  added (l : Label) (p : Nat) : ¬ t.Occupied l p → ∀ m q,
    (t.offer (l, p)).position? m = some q ↔ (m = l ∧ q = p) ∨ t.position? m = some q

/-! ## One insertion -/

theorem labelAt?_cons (entries : List (Label × Nat)) (l : Label) (p q : Nat) :
    labelAt? ⟨(l, p) :: entries⟩ q = if p = q then some l else labelAt? ⟨entries⟩ q := by
  unfold labelAt?
  rw [List.find?_cons]
  by_cases h : p = q <;> simp [h]

theorem occupied_iff :
    t.Occupied l p ↔ (t.entries.any fun e => e.1 = l || e.2 = p) = true := by
  have hl : (∃ q, t.position? l = some q) ↔ ∃ e ∈ t.entries, e.1 = l := by
    rw [← Option.isSome_iff_exists, position?, Option.isSome_map, List.find?_isSome]
    simp
  have hp : (∃ m, t.labelAt? p = some m) ↔ ∃ e ∈ t.entries, e.2 = p := by
    rw [← Option.isSome_iff_exists, labelAt?, Option.isSome_map, List.find?_isSome]
    simp
  rw [Occupied, hl, hp, List.any_eq_true, ← exists_or]
  refine exists_congr fun e => ?_
  rw [← and_or_left, Bool.or_eq_true, decide_eq_true_iff, decide_eq_true_iff]

theorem insert?_eq_none_iff : t.insert? l p = none ↔ t.Occupied l p := by
  rw [occupied_iff, insert?]
  split
  · next h => exact iff_of_true rfl h
  · next h => exact iff_of_false (by simp) h

theorem insert?_eq_some_iff :
    t.insert? l p = some t' ↔ ¬ t.Occupied l p ∧ t' = ⟨(l, p) :: t.entries⟩ := by
  rw [occupied_iff, insert?]
  split
  · next h => exact iff_of_false (by simp) fun hn => hn.1 h
  · next h =>
    rw [Option.some.injEq, eq_comm]
    exact (and_iff_right h).symm

/-- The new pair meets neither its label nor its position in the table. -/
theorem OneToOne.insert? (h : t.OneToOne) (hi : t.insert? l p = some t') : t'.OneToOne := by
  obtain ⟨hfree, rfl⟩ := insert?_eq_some_iff.mp hi
  intro m q
  rw [labelAt?_cons, position?_cons]
  by_cases hl : l = m <;> by_cases hp : p = q
  · simp [hl, hp]
  · rw [if_neg hp, if_pos hl, h]
    refine iff_of_false (fun hm => hfree (.inl ⟨q, hl ▸ hm⟩)) ?_
    simpa using hp
  · rw [if_pos hp, if_neg hl, ← h]
    refine iff_of_false (by simpa using hl) fun hm => hfree (.inr ⟨m, hp ▸ hm⟩)
  · rw [if_neg hp, if_neg hl]
    exact h m q

theorem offer_of_occupied (h : t.Occupied l p) : t.offer (l, p) = t := by
  rw [offer, insert?_eq_none_iff.mpr h]
  rfl

theorem offer_of_free (h : ¬ t.Occupied l p) : t.offer (l, p) = ⟨(l, p) :: t.entries⟩ := by
  rw [offer, insert?_eq_some_iff.mpr ⟨h, rfl⟩]
  rfl

/-- An accepted pair is found from now on, and nothing else changes. -/
theorem position?_offer (h : ¬ t.Occupied l p) (m : Label) (q : Nat) :
    (t.offer (l, p)).position? m = some q ↔ (m = l ∧ q = p) ∨ t.position? m = some q := by
  rw [offer_of_free h, position?_cons]
  by_cases hm : l = m
  · subst hm
    have hnone : ∀ q, t.position? l ≠ some q := fun q hq => h (.inl ⟨q, hq⟩)
    simp [hnone, eq_comm]
  · simp [hm, Ne.symm hm]

theorem guarded (t : LabelTable) : t.Guarded where
  refused _ _ := insert?_eq_none_iff
  unchanged _ _ := offer_of_occupied
  added _ _ := position?_offer

theorem OneToOne.offer (h : t.OneToOne) (pair : Label × Nat) : (t.offer pair).OneToOne := by
  cases hi : t.insert? pair.1 pair.2 with
  | none => rw [LabelTable.offer, hi]; exact h
  | some t' => rw [LabelTable.offer, hi]; exact h.insert? hi

theorem OneToOne.offers (h : t.OneToOne) (pairs : List (Label × Nat)) :
    (t.offers pairs).OneToOne := by
  induction pairs generalizing t with
  | nil => exact h
  | cons pair pairs ih => exact ih (h.offer pair)

/-! ## The table of a sequence -/

theorem OneToOne.add (h : t.OneToOne) {entry : Instruction × Nat}
    (ha : LabelTable.add scope t entry = .ok t') : t'.OneToOne := by
  unfold LabelTable.add at ha
  dsimp only at ha
  split at ha
  · split at ha
    · next hi => cases ha; exact h.insert? hi
    · cases ha
  · cases ha; exact h

theorem oneToOne_ofCode (h : ofCode code scope = .ok t) : t.OneToOne := by
  have fold : ∀ (xs : List (Instruction × Nat)) (t t' : LabelTable), t.OneToOne →
      xs.foldlM (LabelTable.add scope) t = .ok t' → t'.OneToOne := by
    intro xs
    induction xs with
    | nil => intro t t' h hf; cases hf; exact h
    | cons x xs ih =>
      intro t t' h hf
      rw [List.foldlM_cons] at hf
      cases ha : LabelTable.add scope t x with
      | error e => rw [ha] at hf; cases hf
      | ok t1 =>
        rw [ha] at hf
        exact ih t1 t' (h.add ha) hf
  exact fold _ {} t (fun _ _ => by simp [labelAt?, position?]) h

theorem nodup_attached_iff_labelledAt : (attached code).Nodup ↔
    ∀ l j k, LabelledAt code l j → LabelledAt code l k → j = k := by
  rw [nodup_attached_iff]
  constructor
  · rintro h l j k ⟨hn, i, hj, hi⟩ ⟨-, i', hk, hi'⟩
    cases l with
    | named name => exact h j k i i' name hj hk hi hi'
    | _ => cases hn
  · intro h j k i i' name hj hk hi hi'
    exact h (.named name) j k ⟨rfl, i, hj, hi⟩ ⟨rfl, i', hk, hi'⟩

theorem exists_ofCode_iff : (∃ t, ofCode code scope = .ok t) ↔
    ∀ l j k, LabelledAt code l j → LabelledAt code l k → j = k := by
  rw [← nodup_attached_iff_labelledAt]
  constructor
  · rintro ⟨t, ht⟩
    exact nodup_of_ofCode ht
  · exact exists_ofCode

/-! ## The row that a table fails at -/

/-- The rows before the one that fails have a table, which knows the label of that row. -/
theorem ofCode_error_cases {e : Fault} (h : ofCode code scope = .error e) :
    ∃ before i after t first, code = before ++ i :: after ∧ ofCode before scope = .ok t ∧
      i.label.isNamed = true ∧ t.position? i.label = some first ∧
      e = .duplicateLabel i.label scope (first + 1) (before.length + 1) := by
  obtain ⟨ys, x, zs, t, hx, ht, he⟩ := exists_of_foldlM_error h
  obtain ⟨before, rest, rfl, rfl, hrest⟩ := List.zipIdx_eq_append_iff.mp hx
  obtain ⟨i, after, rfl, rfl, -⟩ := List.zipIdx_eq_cons_iff.mp hrest.symm
  rw [Nat.zero_add] at he
  unfold add at he
  dsimp only at he
  split at he
  · next hn =>
    split at he
    · cases he
    · next hnone =>
      rcases insert?_eq_none_iff.mp hnone with ⟨first, hfirst⟩ | ⟨m, hm⟩
      · rw [hfirst] at he
        cases he
        exact ⟨before, i, after, t, first, rfl, ht, hn, hfirst, rfl⟩
      · -- no earlier row has the number of this one
        obtain ⟨-, i', hi', -⟩ := (position?_ofCode ht m _).mp ((oneToOne_ofCode ht m _).mp hm)
        rw [List.getElem?_eq_none (Nat.le_refl _)] at hi'
        cases hi'
  · cases he

theorem labelledAt_append_iff {before after : List Instruction} (h : p < before.length) :
    LabelledAt (before ++ after) l p ↔ LabelledAt before l p := by
  rw [LabelledAt, LabelledAt, List.getElem?_append_left h]

theorem firstRepeat_of_ofCode {e : Fault} (h : ofCode code scope = .error e) :
    ∃ l first second, FirstRepeat code l first second ∧
      e = .duplicateLabel l scope (first + 1) (second + 1) := by
  obtain ⟨before, i, after, t, first, rfl, ht, hn, hfirst, rfl⟩ := ofCode_error_cases h
  have once := exists_ofCode_iff.mp ⟨t, ht⟩
  have hold : LabelledAt before i.label first := (position?_ofCode ht _ _).mp hfirst
  have hlt : first < before.length := by
    obtain ⟨-, i', hi', -⟩ := hold
    exact (List.getElem?_eq_some_iff.mp hi').1
  refine ⟨i.label, first, before.length, ?_, rfl⟩
  exact {
    lt := hlt
    first_labelled := (labelledAt_append_iff hlt).mpr hold
    second_labelled := ⟨hn, i, by simp, rfl⟩
    first_least := by
      intro j hj
      by_cases hjlt : j < before.length
      · exact Nat.le_of_eq (once _ _ _ hold ((labelledAt_append_iff hjlt).mp hj))
      · omega
    second_least := by
      intro m j k hjk hj hk
      by_contra hklt
      have := once m j k ((labelledAt_append_iff (by omega)).mp hj)
        ((labelledAt_append_iff (by omega)).mp hk)
      omega }

end LabelTable

/-! ## What the check reports first -/

namespace Check

variable {r : Registry} {scope : Scope} {site : Site} {code : List Instruction} {e : Fault}

theorem scope?_of_mem_listIssues {as : List Argument}
    (h : ∀ a ∈ as, ∀ e ∈ argumentIssues r site a, e.scope? = some site.scope)
    {reported : List String} (he : e ∈ listIssues r site reported as) :
    e.scope? = some site.scope := by
  induction as generalizing reported with
  | nil => cases he
  | cons a rest ih =>
    have ih := @ih fun b hb => h b (by simp [hb])
    rw [listIssues] at he
    split at he
    · rcases List.mem_cons.mp he with rfl | he
      · rfl
      · exact (List.mem_append.mp he).elim (h a (by simp) e) ih
    · exact (List.mem_append.mp he).elim (h a (by simp) e) ih

theorem scope?_of_mem_argumentIssues (a : Argument) :
    ∀ e ∈ argumentIssues r site a, e.scope? = some site.scope := by
  induction a with
  | leaf v =>
    intro e he
    rw [argumentIssues] at he
    split at he
    · cases he
    · rw [List.mem_singleton.mp he]; rfl
  | call name arguments ih => exact fun e he => scope?_of_mem_listIssues ih he

theorem scope?_of_mem_instructionIssues {labels : List Label} {i : Instruction}
    (he : e ∈ instructionIssues r labels site i) : e.scope? = some site.scope := by
  rcases List.mem_append.mp he with he | he
  · rcases List.mem_append.mp he with he | he
    · unfold targetIssues at he
      split at he
      · split at he
        · cases he
        · rw [List.mem_singleton.mp he]; rfl
      · cases he
    · obtain ⟨v, -, rfl⟩ := List.mem_map.mp he
      rfl
  · unfold callIssues at he
    split at he
    · rcases List.mem_append.mp he with he | he
      · split at he
        · cases he
        · rw [List.mem_singleton.mp he]; rfl
      · exact scope?_of_mem_listIssues (fun a _ => scope?_of_mem_argumentIssues a) he
    · cases he

/-- Every issue of a sequence names its scope. -/
theorem scope?_of_mem_sequenceIssues (he : e ∈ sequenceIssues r scope code) :
    e.scope? = some scope := by
  rcases List.mem_append.mp he with he | he
  · obtain ⟨l, first, second, rfl⟩ := eq_of_mem_duplicateLabels he
    rfl
  · obtain ⟨⟨i, position⟩, -, he⟩ := List.mem_flatMap.mp he
    exact scope?_of_mem_instructionIssues he

theorem head?_sequenceIssues (h : LabelTable.ofCode code scope = .error e) :
    (sequenceIssues r scope code).head? = some e := by
  rw [sequenceIssues, List.head?_append, LabelTable.head?_of_ofCode_error h]
  rfl

theorem find?_sequenceIssues (h : LabelTable.ofCode code scope = .error e) :
    (sequenceIssues r scope code).find? (·.scope? = some scope) = some e := by
  obtain ⟨rest, hrest⟩ := List.head?_eq_some_iff.mp (head?_sequenceIssues (r := r) h)
  have hs : e.scope? = some scope :=
    scope?_of_mem_sequenceIssues (by rw [hrest]; exact .head _)
  rw [hrest, List.find?_cons_of_pos (by simpa using hs)]

theorem find?_sequenceIssues_of_ne {scope' : Scope} (h : scope' ≠ scope) :
    (sequenceIssues r scope' code).find? (·.scope? = some scope) = none := by
  rw [List.find?_eq_none]
  intro e he hs
  rw [scope?_of_mem_sequenceIssues he, decide_eq_true_iff] at hs
  exact h (Option.some.inj hs)

end Check

theorem Registry.eq_of_scope_eq {r : Registry} {f g : Function} (hf : f ∈ r.functions)
    (hg : g ∈ r.functions) (h : g.scope = f.scope) : g = f := by
  have hname : g.name = f.name := Scope.function.inj h
  have hget := Registry.mem_functions_iff.mp hg
  rw [hname, Registry.mem_functions_iff.mp hf] at hget
  exact (Option.some.inj hget).symm

namespace Program

variable {p : Program} {scope : Scope} {code : List Instruction} {e : Fault}

/-- The first issue of a program that belongs to a scope. -/
def firstIssue? (p : Program) (scope : Scope) : Option Fault :=
  p.issues.find? (·.scope? = some scope)

/-- Each scope of a program has one sequence, so its issues stand together. -/
theorem Sequence.firstIssue? (h : p.Sequence scope code)
    (he : LabelTable.ofCode code scope = .error e) : p.firstIssue? scope = some e := by
  rw [Program.firstIssue?, issues, List.find?_append, List.find?_append]
  cases h with
  | main => rw [Check.find?_sequenceIssues he]; rfl
  | @body f hf =>
    rw [Check.find?_sequenceIssues_of_ne (by simp [Function.scope]), Option.none_or,
      List.find?_flatMap]
    have hmem := Registry.mem_functions_iff.mpr hf
    cases hfind : p.functions.functions.findSome? fun g =>
        (Check.sequenceIssues p.functions g.scope g.body).find? (·.scope? = some f.scope) with
    | none =>
      have hnone := List.findSome?_eq_none_iff.mp hfind f hmem
      rw [Check.find?_sequenceIssues he] at hnone
      cases hnone
    | some e' =>
      obtain ⟨g, hg, hge⟩ := List.exists_of_findSome?_eq_some hfind
      have hgf : g = f := by
        by_contra hne
        have hscope : g.scope ≠ f.scope := fun h => hne (Registry.eq_of_scope_eq hmem hg h)
        rw [Check.find?_sequenceIssues_of_ne hscope] at hge
        cases hge
      subst hgf
      rw [Check.find?_sequenceIssues he] at hge
      rw [hge]
      rfl

end Program

/-! ## The table is exact -/

namespace LabelTable

/-- The table of a sequence exists exactly if no name labels two rows. It resolves each name to its
row and back, and stays one to one under insertions, which are refused exactly where the label or
the position is taken. If there is no table, the fault names the first row that repeats a label, and
the check reports it first. -/
theorem ofCode_exact (code : List Instruction) (scope : Scope) :
    ((∃ t, ofCode code scope = .ok t) ↔
      ∀ l j k, LabelledAt code l j → LabelledAt code l k → j = k) ∧
    (∀ t, ofCode code scope = .ok t →
      (∀ l p, t.position? l = some p ↔ LabelledAt code l p) ∧
      (∀ l p, t.labelAt? p = some l ↔ t.position? l = some p) ∧
      ∀ pairs, (t.offers pairs).OneToOne ∧ (t.offers pairs).Guarded) ∧
    ∀ e, ofCode code scope = .error e →
      (∃ l first second, FirstRepeat code l first second ∧
        e = .duplicateLabel l scope (first + 1) (second + 1)) ∧
      (∀ r, (Check.sequenceIssues r scope code).head? = some e) ∧
      ∀ p : Program, p.Sequence scope code → p.firstIssue? scope = some e := by
  refine ⟨exists_ofCode_iff, fun t ht => ?_, fun e he => ?_⟩
  · have hone := oneToOne_ofCode ht
    exact ⟨position?_ofCode ht, hone, fun pairs => ⟨hone.offers pairs, guarded _⟩⟩
  · refine ⟨firstRepeat_of_ofCode he, fun r => Check.head?_sequenceIssues he, fun p hp => ?_⟩
    exact hp.firstIssue? he

/-- The exit may label two rows, a name may not. -/
example : ofCode [⟨.exit, .increase .result⟩, ⟨.named "A", .increase .result⟩,
    ⟨.exit, .decrease .result⟩, ⟨.named "A", .decrease .result⟩] .program =
      .error (.duplicateLabel (.named "A") .program 2 4) := by
  decide

end LabelTable

end SLanguage
