import SLanguage.LabelTable
import SLanguage.Proofs.WellFormed

/-!
# The table of a sequence

The table of a sequence exists exactly if no named label stands twice; then it finds each named
label where it stands (`position?_ofCode`). Otherwise the fault is the first that the check reports
(`head?_of_ofCode_error`): both read the sequence in order and remember where each label stood
first.
-/

namespace SLanguage.LabelTable

variable {scope : Scope}

theorem position?_cons (entries : List (Label × Nat)) (l : Label) (p : Nat) (m : Label) :
    position? ⟨(l, p) :: entries⟩ m = if l = m then some p else position? ⟨entries⟩ m := by
  unfold position?
  rw [List.find?_cons]
  by_cases h : l = m <;> simp [h]

/-- The table as the check keeps it, with 1-based positions. -/
theorem lookup_succ (entries : List (Label × Nat)) (l : Label) :
    (entries.map fun e => (e.1, e.2 + 1)).lookup l = (position? ⟨entries⟩ l).map (· + 1) := by
  induction entries with
  | nil => rfl
  | cons e rest ih =>
    rw [List.map_cons, List.lookup_cons, position?_cons]
    by_cases h : e.1 = l
    · simp [h]
    · rw [beq_false_of_ne (Ne.symm h), if_neg h]; exact ih

/-- All positions in the table are below `k`. -/
def Below (t : LabelTable) (k : Nat) : Prop := ∀ e ∈ t.entries, e.2 < k

theorem Below.cons {t : LabelTable} {k : Nat} (h : t.Below k) (l : Label) :
    Below ⟨(l, k) :: t.entries⟩ (k + 1) := by
  intro e he
  rcases List.mem_cons.mp he with rfl | he
  · exact Nat.lt_succ_self k
  · exact Nat.lt_succ_of_lt (h e he)

theorem Below.succ {t : LabelTable} {k : Nat} (h : t.Below k) : t.Below (k + 1) :=
  fun e he => Nat.lt_succ_of_lt (h e he)

theorem insert?_below {t : LabelTable} {k : Nat} (hk : t.Below k) (l : Label) :
    t.insert? l k = if (t.position? l).isSome then none else some ⟨(l, k) :: t.entries⟩ := by
  have e : (t.entries.any fun e => e.1 = l || e.2 = k) = (t.position? l).isSome := by
    rw [position?, Option.isSome_map, List.isSome_find?, Bool.eq_iff_iff, List.any_eq_true,
      List.any_eq_true]
    refine exists_congr fun e => and_congr_right fun he => ?_
    have := hk e he
    simp only [show e.2 ≠ k by omega, decide_false, Bool.or_false]
  rw [insert?, e]

/-- The label of the instruction at `k`, added to a table of the labels before it. -/
theorem add_eq {t : LabelTable} {k : Nat} (hk : t.Below k) (i : Instruction) :
    add scope t (i, k) =
      if i.label.isNamed then
        match t.position? i.label with
        | some first => .error (.duplicateLabel i.label scope (first + 1) (k + 1))
        | none => .ok ⟨(i.label, k) :: t.entries⟩
      else .ok t := by
  unfold add
  simp only [insert?_below hk]
  cases i.label.isNamed with
  | false => rfl
  | true => cases t.position? i.label <;> simp

/-- Where the table fails the check reports the same fault, as its first. -/
theorem foldlM_add_error {code : List Instruction} {k : Nat} {t : LabelTable} (hk : t.Below k)
    {e : Fault} (h : (code.zipIdx k).foldlM (add scope) t = .error e) :
    (Check.duplicateLabels scope (t.entries.map fun e => (e.1, e.2 + 1))
      (code.zipIdx (k + 1))).head? = some e := by
  induction code generalizing k t with
  | nil => cases h
  | cons i rest ih =>
    rw [List.zipIdx_cons, List.foldlM_cons, add_eq hk] at h
    rw [List.zipIdx_cons, Check.duplicateLabels, lookup_succ]
    cases hn : i.label.isNamed with
    | false =>
      simp only [hn] at h
      exact ih hk.succ h
    | true =>
      cases hp : t.position? i.label with
      | some first =>
        simp only [hn, hp] at h
        cases h
        rfl
      | none =>
        simp only [hn, hp] at h
        simp only [Option.map_none, if_true]
        exact ih (hk.cons i.label) h

theorem head?_of_ofCode_error {code : List Instruction} {e : Fault}
    (h : ofCode code scope = .error e) :
    (Check.duplicateLabels scope [] (code.zipIdx 1)).head? = some e :=
  foldlM_add_error (t := {}) (by simp [Below]) h

theorem ofCode_error_mem {code : List Instruction} {e : Fault} (h : ofCode code scope = .error e) :
    e ∈ Check.duplicateLabels scope [] (code.zipIdx 1) :=
  List.mem_of_mem_head? (head?_of_ofCode_error h)

theorem exists_ofCode {code : List Instruction} (h : (attached code).Nodup) :
    ∃ t, ofCode code scope = .ok t := by
  cases ht : ofCode code scope with
  | ok t => exact ⟨t, rfl⟩
  | error e =>
    have hm := ofCode_error_mem ht
    rw [Check.duplicateLabels_eq_nil_iff.mpr ⟨by rwa [List.zipIdx_map_fst], by simp⟩] at hm
    cases hm

theorem foldlM_add_ok {code : List Instruction} {k : Nat} {t t' : LabelTable} (hk : t.Below k)
    (h : (code.zipIdx k).foldlM (add scope) t = .ok t') :
    (attached code).Nodup ∧ ∀ l ∈ attached code, t.position? l = none := by
  induction code generalizing k t with
  | nil => exact ⟨.nil, List.forall_mem_nil _⟩
  | cons i rest ih =>
    rw [List.zipIdx_cons, List.foldlM_cons, add_eq hk] at h
    cases hn : i.label.isNamed with
    | false =>
      have e : attached (i :: rest) = attached rest := List.filter_cons_of_neg (by simp [hn])
      simp only [hn] at h
      rw [e]
      exact ih hk.succ h
    | true =>
      have e : attached (i :: rest) = i.label :: attached rest := List.filter_cons_of_pos hn
      cases hp : t.position? i.label with
      | some first => simp only [hn, hp] at h; cases h
      | none =>
        simp only [hn, hp] at h
        obtain ⟨hnd, hold⟩ := ih (hk.cons i.label) h
        -- the labels of the rest are new for a table that has the label of `i`
        have hnew : ∀ l ∈ attached rest, i.label ≠ l ∧ t.position? l = none := by
          intro l hl
          have hl' := hold l hl
          rw [position?_cons] at hl'
          split at hl'
          · cases hl'
          · next hne => exact ⟨hne, hl'⟩
        rw [e]
        refine ⟨List.nodup_cons.mpr ⟨fun hm => (hnew _ hm).1 rfl, hnd⟩, ?_⟩
        exact List.forall_mem_cons.mpr ⟨hp, fun l hl => (hnew l hl).2⟩

/-- A sequence with a table has no named label twice. -/
theorem nodup_of_ofCode {code : List Instruction} {t : LabelTable}
    (h : ofCode code scope = .ok t) : (attached code).Nodup :=
  (foldlM_add_ok (t := {}) (by simp [Below]) h).1

theorem position?_foldlM_add {code : List Instruction} {k : Nat} {t t' : LabelTable}
    (hk : t.Below k) (h : (code.zipIdx k).foldlM (add scope) t = .ok t') (l : Label) (p : Nat) :
    t'.position? l = some p ↔ t.position? l = some p ∨
      l.isNamed = true ∧ ∃ j i, p = k + j ∧ code[j]? = some i ∧ i.label = l := by
  induction code generalizing k t with
  | nil => cases h; simp
  | cons i rest ih =>
    -- whether `l` stands before the rest of the sequence at `j`, or before `i`
    have split : (∃ j i', p = k + j ∧ (i :: rest)[j]? = some i' ∧ i'.label = l) ↔
        (p = k ∧ i.label = l) ∨ ∃ j i', p = k + 1 + j ∧ rest[j]? = some i' ∧ i'.label = l := by
      constructor
      · rintro ⟨j, i', hp, hi, hl⟩
        cases j with
        | zero => cases hi; exact .inl ⟨hp, hl⟩
        | succ j => exact .inr ⟨j, i', by omega, by simpa using hi, hl⟩
      · rintro (⟨rfl, hl⟩ | ⟨j, i', rfl, hi, hl⟩)
        · exact ⟨0, i, rfl, rfl, hl⟩
        · exact ⟨j + 1, i', by omega, by simpa using hi, hl⟩
    rw [List.zipIdx_cons, List.foldlM_cons, add_eq hk] at h
    rw [split]
    cases hn : i.label.isNamed with
    | false =>
      simp only [hn] at h
      rw [ih hk.succ h]
      refine or_congr_right (and_congr_right fun hl => ?_)
      refine ⟨.inr, fun h => h.resolve_left ?_⟩
      rintro ⟨-, rfl⟩
      rw [hn] at hl; cases hl
    | true =>
      cases hp : t.position? i.label with
      | some first => simp only [hn, hp] at h; cases h
      | none =>
        simp only [hn, hp] at h
        rw [ih (hk.cons i.label) h, position?_cons]
        by_cases hl : i.label = l
        · subst hl
          simp only [if_true, hp, hn, Option.some.injEq, and_true, true_and, eq_comm (a := k),
            reduceCtorEq, false_or]
        · simp only [hl, if_false, and_false, false_or]

/-- The table finds a label exactly where it stands. -/
theorem position?_ofCode {code : List Instruction} {t : LabelTable} (h : ofCode code scope = .ok t)
    (l : Label) (p : Nat) :
    t.position? l = some p ↔ l.isNamed = true ∧ ∃ i, code[p]? = some i ∧ i.label = l := by
  have e := position?_foldlM_add (t := {}) (by simp [Below]) h l p
  rw [e]
  simp [position?]

theorem position?_ofCode_eq_none {code : List Instruction} {t : LabelTable}
    (h : ofCode code scope = .ok t) {l : Label} : t.position? l = none ↔ l ∉ attached code := by
  constructor
  · intro hl hm
    obtain ⟨hn, i, hi, rfl⟩ := mem_attached.mp hm
    obtain ⟨k, hk⟩ := List.getElem?_of_mem hi
    rw [(position?_ofCode h i.label k).mpr ⟨hn, i, hk, rfl⟩] at hl
    cases hl
  · refine fun hl => Option.eq_none_iff_forall_ne_some.mpr fun k hk => hl ?_
    obtain ⟨hn, i, hi, rfl⟩ := (position?_ofCode h l k).mp hk
    exact mem_attached.mpr ⟨hn, i, List.mem_of_getElem? hi, rfl⟩

end SLanguage.LabelTable
