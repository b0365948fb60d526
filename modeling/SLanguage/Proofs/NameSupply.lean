import Mathlib.Data.List.Induction
import SLanguage.Proofs.FreshNames
import SLanguage.Proofs.Occurrence

/-!
# The supply of fresh names, request by request

A supply is asked for names of the two kinds in any order (`Names.answers`). What a request gets
depends only on where its kind starts and on how many requests of that kind came before it
(`getElem?_answers`), and a kind starts just above the largest number that the seed uses
(`next_above_le_iff`). Everything said of the answers follows from these two facts and from the
texts of labels: a label has the number `n` exactly if it reads `L`, zeros, and the digits of `n`
(`Label.number?_eq_some_iff`).
-/

namespace SLanguage

/-! ## Numbers in texts -/

theorem exists_digitChar {c : Char} (h : c.isDigit = true) : ∃ d, d < 10 ∧ c = Nat.digitChar d := by
  obtain ⟨hlo, hhi⟩ := Char.isDigit_iff_toNat.mp h
  have h0 : '0'.toNat = 48 := rfl
  have h9 : '9'.toNat = 57 := rfl
  have he : c = Char.ofNat (48 + (c.toNat - 48)) := by
    rw [Nat.add_sub_cancel' (h0 ▸ hlo), Char.ofNat_toNat]
  have hd : c.toNat - 48 < 10 := by omega
  refine ⟨c.toNat - 48, hd, he.trans ?_⟩
  revert hd
  generalize c.toNat - 48 = d
  revert d
  decide

/-- Digits of value `n` are the digits of `n` after some zeros. -/
theorem digits_iff {ds : List Char} {n : Nat} :
    ds ≠ [] ∧ (∀ c ∈ ds, c.isDigit = true) ∧ Nat.ofDigitChars 10 ds 0 = n ↔
      ∃ zeros, ds = List.replicate zeros '0' ++ Nat.toDigits 10 n := by
  constructor
  · rintro ⟨hne, hds, hn⟩
    -- from the last digit on, since it is the one that the value ends with
    induction ds using List.reverseRecOn generalizing n with
    | nil => exact absurd rfl hne
    | append_singleton ds c ih =>
      obtain ⟨hinit, hc⟩ := List.forall_mem_append.mp hds
      obtain ⟨d, hd, rfl⟩ := exists_digitChar (hc c (List.mem_singleton.mpr rfl))
      rw [Nat.ofDigitChars_append, Nat.ofDigitChars_cons_digitChar_of_lt_ten hd,
        Nat.ofDigitChars_nil] at hn
      rw [← Nat.toDigits_of_lt_base hd]
      by_cases hnil : ds = []
      · subst hnil
        rw [Nat.ofDigitChars_nil, Nat.mul_zero, Nat.zero_add] at hn
        exact ⟨0, by rw [hn]; rfl⟩
      obtain ⟨zeros, hz⟩ := ih hnil hinit rfl
      generalize Nat.ofDigitChars 10 ds 0 = m at hz hn
      subst hz hn
      rcases Nat.eq_zero_or_pos m with rfl | hm
      · refine ⟨zeros + 1, ?_⟩
        rw [List.replicate_succ', Nat.mul_zero, Nat.zero_add]
        rfl
      · exact ⟨zeros, by rw [List.append_assoc, Nat.toDigits_append_toDigits (by decide) hm hd]⟩
  · rintro ⟨zeros, rfl⟩
    have hzeros : Nat.ofDigitChars 10 (List.replicate zeros '0') 0 = 0 := by
      induction zeros with
      | zero => rfl
      | succ zeros ih => rw [List.replicate_succ, Nat.ofDigitChars_cons]; exact ih
    refine ⟨?_, ?_, ?_⟩
    · exact fun e => Nat.toDigits_ne_nil (List.append_eq_nil_iff.mp e).2
    · refine List.forall_mem_append.mpr ⟨fun c hc => ?_, fun c hc => ?_⟩
      · rw [List.eq_of_mem_replicate hc]
        rfl
      · exact Nat.isDigit_of_mem_toDigits (by decide) (by decide) hc
    · rw [Nat.ofDigitChars_append, hzeros, Nat.ofDigitChars_ten_toDigits]

namespace Label

/-- `L`, zeros, and the digits of the number. -/
def padded (zeros n : Nat) : Label :=
  named ("L" ++ String.ofList (List.replicate zeros '0') ++ toString n)

theorem number?_eq_some_iff {l : Label} {n : Nat} :
    l.number? = some n ↔ n < numberLimit ∧ ∃ zeros, l = padded zeros n := by
  have toList_padded : ∀ zeros, ("L" ++ String.ofList (List.replicate zeros '0') ++
      toString n).toList = 'L' :: (List.replicate zeros '0' ++ Nat.toDigits 10 n) := by
    intro zeros
    simp
  constructor
  · intro h
    cases l with
    | named s =>
      simp only [number?] at h
      split at h
      · next d ds hs =>
        split at h
        · next hd =>
          cases h
          rw [Bool.and_eq_true, List.all_eq_true, decide_eq_true_eq] at hd
          obtain ⟨zeros, hz⟩ := digits_iff.mp ⟨List.cons_ne_nil d ds, hd.1, rfl⟩
          refine ⟨hd.2, zeros, congrArg named (String.toList_inj.mp ?_)⟩
          rw [hs]
          exact (congrArg ('L' :: ·) hz).trans (toList_padded zeros).symm
        · cases h
      · cases h
    | _ => cases h
  · rintro ⟨hn, zeros, rfl⟩
    obtain ⟨hne, hds, hv⟩ := digits_iff.mpr ⟨zeros, rfl⟩
    simp only [padded, number?, toList_padded zeros]
    generalize List.replicate zeros '0' ++ Nat.toDigits 10 n = ds at hne hds hv
    cases ds with
    | nil => exact absurd rfl hne
    | cons d ds => simp [hv, hn, List.all_eq_true.mpr hds]

end Label

/-! ## Kinds of names -/

namespace NameKind

variable {kind kind' : NameKind}

/-- Numbers of names of the kind are below it. -/
def limit : NameKind → Nat
  | workVariable => Variable.numberLimit
  | label => Label.numberLimit

/-- The name that is handed out for a number. -/
def name : NameKind → Nat → Variable ⊕ Label
  | workVariable, number => .inl (.work (UInt32.ofNat number))
  | label, number => .inr (.numbered number)

/-- The name of the largest number. -/
def last : NameKind → Variable ⊕ Label
  | workVariable => .inl (.work 4294967295)
  | label => .inr (.named "L18446744073709551615")

/-- The number that keeps a name from being handed out. -/
def number? : NameKind → Variable ⊕ Label → Option Nat
  | workVariable, .inl (.work k) => some k.toNat
  | label, .inr l => l.number?
  | _, _ => none

/-- Asks for a name of the kind. -/
def draw : NameKind → FreshM (Variable ⊕ Label)
  | workVariable => .inl <$> freshWork
  | label => .inr <$> freshLabel

theorem one_lt_limit (kind : NameKind) : 1 < kind.limit := by
  cases kind <;> decide

theorem name_last (kind : NameKind) : kind.name (kind.limit - 1) = kind.last := by
  cases kind <;> rfl

theorem number?_name {number : Nat} (h : number < kind.limit) :
    kind.number? (kind.name number) = some number := by
  cases kind with
  | workVariable => exact congrArg some (UInt32.toNat_ofNat_of_lt' h)
  | label => exact Label.number?_numbered h

theorem name_inj {a b : Nat} (ha : a < kind.limit) (hb : b < kind'.limit)
    (h : kind.name a = kind'.name b) : kind = kind' ∧ a = b := by
  have hkind : kind = kind' := by
    cases kind <;> cases kind' <;> first | rfl | cases h
  subst hkind
  have hnumber := congrArg kind.number? h
  rw [number?_name ha, number?_name hb] at hnumber
  exact ⟨rfl, Option.some.inj hnumber⟩

theorem number?_lt_limit {x : Variable ⊕ Label} {number : Nat} (h : kind.number? x = some number) :
    number < kind.limit := by
  rcases x with v | l
  · cases kind with
    | workVariable =>
      cases v with
      | work k => cases h; exact k.toNat_lt
      | _ => cases h
    | label => cases h
  · cases kind with
    | workVariable => cases h
    | label => exact (Label.number?_eq_some_iff.mp h).1

end NameKind

/-! ## Requests -/

namespace Names

variable {n n' : Names} {kind kind' : NameKind} {requests : List NameKind}

/-- What requests get, one after the other. A request that fails does not end them. -/
def answers (n : Names) : List NameKind → List (Except Fault (Variable ⊕ Label))
  | [] => []
  | kind :: requests =>
    match kind.draw.run n with
    | .ok x n' => .ok x :: n'.answers requests
    | .error e n' => .error e :: n'.answers requests

/-- The next number of the kind. -/
def next (n : Names) : NameKind → Nat
  | .workVariable => n.nextWork
  | .label => n.nextLabel

/-- One number further in the kind. -/
def advance (n : Names) : NameKind → Names
  | .workVariable => { n with nextWork := n.nextWork + 1 }
  | .label => { n with nextLabel := n.nextLabel + 1 }

/-- The supply after a request. -/
def after (n : Names) (kind : NameKind) : Names :=
  if n.next kind < kind.limit then n.advance kind else n

/-- What a request gets after `before` requests of its kind. -/
def answer (n : Names) (kind : NameKind) (before : Nat) : Except Fault (Variable ⊕ Label) :=
  if n.next kind + before < kind.limit then .ok (kind.name (n.next kind + before))
  else .error (.namesExhausted kind)

theorem next_advance :
    (n.advance kind').next kind = n.next kind + if kind' = kind then 1 else 0 := by
  cases kind' <;> cases kind <;> rfl

theorem run_draw (n : Names) (kind : NameKind) : kind.draw.run n =
    if n.next kind < kind.limit then .ok (kind.name (n.next kind)) (n.advance kind)
    else .error (.namesExhausted kind) n := by
  cases kind with
  | workVariable =>
    have hrun := run_freshWork n
    split at hrun
    · next hlt => exact (FreshM.map_ok hrun).trans (if_pos hlt).symm
    · next hge => exact (FreshM.map_error hrun).trans (if_neg hge).symm
  | label =>
    have hrun := run_freshLabel n
    split at hrun
    · next hlt => exact (FreshM.map_ok hrun).trans (if_pos hlt).symm
    · next hge => exact (FreshM.map_error hrun).trans (if_neg hge).symm

theorem answers_cons (n : Names) (kind : NameKind) (requests : List NameKind) :
    n.answers (kind :: requests) = n.answer kind 0 :: (n.after kind).answers requests := by
  rw [answers, run_draw, answer, after, Nat.add_zero]
  by_cases h : n.next kind < kind.limit
  · rw [if_pos h, if_pos h, if_pos h]
  · rw [if_neg h, if_neg h, if_neg h]

theorem next_after_of_ne (h : kind' ≠ kind) : (n.after kind').next kind = n.next kind := by
  unfold after
  split
  · rw [next_advance, if_neg h, Nat.add_zero]
  · rfl

/-- A request counts for the later ones of its kind, also if it fails; for those of the other kind
it does not. -/
theorem answer_after (kind' : NameKind) (before : Nat) :
    (n.after kind').answer kind before =
      n.answer kind (before + if kind' = kind then 1 else 0) := by
  by_cases h : kind' = kind
  · subst h
    unfold answer after
    by_cases hlt : n.next kind' < kind'.limit
    · rw [if_pos hlt, next_advance, if_pos rfl, Nat.add_right_comm, Nat.add_assoc]
    · rw [if_neg hlt, if_neg (by omega), if_neg (by omega)]
  · rw [answer, answer, next_after_of_ne h, if_neg h, Nat.add_zero]

/-- What each request gets: of the other requests, only those of its kind before it matter. -/
theorem getElem?_answers (n : Names) (requests : List NameKind) (j : Nat) :
    (n.answers requests)[j]? =
      requests[j]?.map fun kind => n.answer kind ((requests.take j).count kind) := by
  induction requests generalizing n j with
  | nil => rfl
  | cons kind' requests ih =>
    rw [answers_cons]
    cases j with
    | zero => rfl
    | succ j =>
      rw [List.getElem?_cons_succ, List.getElem?_cons_succ, ih]
      refine congrArg (requests[j]?.map ·) (funext fun kind => ?_)
      rw [answer_after, List.take_succ_cons, List.count_cons]
      simp only [beq_iff_eq]

theorem answers_congr (hkind : ∀ kind' ∈ requests, kind' = kind) (h : n.next kind = n'.next kind) :
    n.answers requests = n'.answers requests := by
  refine List.ext_getElem? fun j => ?_
  rw [getElem?_answers, getElem?_answers]
  cases hj : requests[j]? with
  | none => rfl
  | some kind' =>
    rw [hkind kind' (List.mem_of_getElem? hj), Option.map_some, Option.map_some, answer, answer, h]

/-- The answers to the requests of one kind are those that these requests alone would get. -/
theorem filter_answers (n : Names) (requests : List NameKind) (kind : NameKind) :
    ((requests.zip (n.answers requests)).filter (·.1 = kind)).map (·.2) =
      n.answers (requests.filter (· = kind)) := by
  induction requests generalizing n with
  | nil => rfl
  | cons kind' requests ih =>
    rw [answers_cons, List.zip_cons_cons]
    by_cases h : kind' = kind
    · rw [List.filter_cons_of_pos (by simpa using h), List.filter_cons_of_pos (by simpa using h),
        List.map_cons, ih, answers_cons]
    · rw [List.filter_cons_of_neg (by simpa using h), List.filter_cons_of_neg (by simpa using h),
        ih]
      refine answers_congr (fun kind'' hm => ?_) (next_after_of_ne h)
      simpa using (List.mem_filter.mp hm).2

theorem getElem?_answers_ok {j : Nat} {x : Variable ⊕ Label}
    (h : (n.answers requests)[j]? = some (.ok x)) :
    ∃ kind, requests[j]? = some kind ∧ n.next kind + (requests.take j).count kind < kind.limit ∧
      x = kind.name (n.next kind + (requests.take j).count kind) := by
  rw [getElem?_answers] at h
  obtain ⟨kind, hj, ha⟩ := Option.map_eq_some_iff.mp h
  unfold answer at ha
  split at ha
  · next hlt => exact ⟨kind, hj, hlt, (Except.ok.inj ha).symm⟩
  · cases ha

theorem getElem?_answers_of_lt {j : Nat} (hj : requests[j]? = some kind)
    (h : n.next kind + (requests.take j).count kind < kind.limit) :
    (n.answers requests)[j]? =
      some (.ok (kind.name (n.next kind + (requests.take j).count kind))) := by
  rw [getElem?_answers, hj, Option.map_some, answer, if_pos h]

theorem getElem?_answers_error_iff {j : Nat} (hj : requests[j]? = some kind) :
    (n.answers requests)[j]? = some (.error (.namesExhausted kind)) ↔
      kind.limit ≤ n.next kind + (requests.take j).count kind := by
  rw [getElem?_answers, hj, Option.map_some, answer]
  split
  · next h => exact iff_of_false (by simp) (Nat.not_le.mpr h)
  · next h => exact iff_of_true rfl (Nat.not_lt.mp h)

end Names

/-! ## The names of a seed -/

/-- The name stands in the instruction: as an operand, inside an argument, as its label or as its
jump target. -/
def Instruction.Carries (i : Instruction) : Variable ⊕ Label → Prop
  | .inl v => i.Mentions v
  | .inr l => i.label = l ∨ i.target? = some l

namespace Names

variable {n : Names} {kind : NameKind} {requests : List NameKind} {seed : List Instruction}

def Mentioned (seed : List Instruction) (x : Variable ⊕ Label) : Prop := ∃ i ∈ seed, i.Carries x

/-- A name of the kind with the largest number, of which none is left above. A label may write the
number with leading zeros. -/
def Spent (seed : List Instruction) : NameKind → Prop
  | .workVariable => Mentioned seed (.inl (.work 4294967295))
  | .label => ∃ zeros, Mentioned seed (.inr (.padded zeros 18446744073709551615))

/-- A fold moves past what its members say. -/
theorem next_foldl_le_iff {α : Type} {step : Names → α → Names} {Q : α → Prop} {bound : Nat}
    (hstep : ∀ n x, (step n x).next kind ≤ bound ↔ n.next kind ≤ bound ∧ Q x) (xs : List α)
    (n : Names) : (xs.foldl step n).next kind ≤ bound ↔ n.next kind ≤ bound ∧ ∀ x ∈ xs, Q x := by
  induction xs generalizing n with
  | nil => simp
  | cons x xs ih => rw [List.foldl_cons, ih, hstep, List.forall_mem_cons, and_assoc]

theorem max_succ_le_iff {start bound number : Nat} : max start (number + 1) ≤ bound ↔
    start ≤ bound ∧ ∀ k, some number = some k → k < bound := by
  rw [Nat.max_le, Nat.succ_le_iff]
  refine and_congr_right fun _ => ⟨fun h k hk => ?_, fun h => h number rfl⟩
  cases hk
  exact h

theorem next_pastVariable_le_iff {bound : Nat} (n : Names) (v : Variable) :
    (n.pastVariable v).next kind ≤ bound ↔
      n.next kind ≤ bound ∧ ∀ number, kind.number? (.inl v) = some number → number < bound := by
  cases kind with
  | workVariable =>
    cases v with
    | work k => exact max_succ_le_iff
    | _ => simp [next, pastVariable, NameKind.number?]
  | label => cases v <;> simp [next, pastVariable, NameKind.number?]

theorem next_pastLabel_le_iff {bound : Nat} (n : Names) (l : Label) :
    (n.pastLabel l).next kind ≤ bound ↔
      n.next kind ≤ bound ∧ ∀ number, kind.number? (.inr l) = some number → number < bound := by
  unfold pastLabel
  cases kind with
  | workVariable => cases l.number? <;> simp [next, NameKind.number?]
  | label =>
    rw [NameKind.number?]
    cases l.number? with
    | none => simp
    | some number => exact max_succ_le_iff

theorem next_past_le_iff {bound : Nat} (n : Names) (i : Instruction) :
    (n.past i).next kind ≤ bound ↔ n.next kind ≤ bound ∧
      ∀ x, i.Carries x → ∀ number, kind.number? x = some number → number < bound := by
  have hlabels : ∀ l, l ∈ i.label :: i.target?.toList ↔ i.Carries (.inr l) := by
    intro l
    rw [List.mem_cons, Option.mem_toList, eq_comm]
    rfl
  have hvars : ∀ v, v ∈ i.vars ↔ i.Carries (.inl v) := fun v => Instruction.mem_vars_iff
  rw [past, next_foldl_le_iff next_pastLabel_le_iff, next_foldl_le_iff next_pastVariable_le_iff,
    and_assoc, Sum.forall]
  simp only [hlabels, hvars]

/-- A kind starts just above the largest number that the seed uses. -/
theorem next_above_le_iff {bound : Nat} :
    (above seed).next kind ≤ bound ↔ 1 ≤ bound ∧
      ∀ x, Mentioned seed x → ∀ number, kind.number? x = some number → number < bound := by
  have hstart : next {} kind = 1 := by
    cases kind <;> rfl
  rw [above, next_foldl_le_iff next_past_le_iff, hstart]
  refine and_congr_right fun _ => ?_
  constructor
  · rintro h x ⟨i, hi, hx⟩
    exact h i hi x hx
  · intro h i hi x hx
    exact h x ⟨i, hi, hx⟩

theorem not_mentioned_name {number : Nat}
    (hle : (above seed).next kind ≤ number) (hlt : number < kind.limit) :
    ¬ Mentioned seed (kind.name number) := by
  intro hm
  have h := (next_above_le_iff.mp hle).2 _ hm number (NameKind.number?_name hlt)
  exact Nat.lt_irrefl number h

theorem spent_iff_mentioned :
    Spent seed kind ↔ ∃ x, Mentioned seed x ∧ kind.number? x = some (kind.limit - 1) := by
  cases kind with
  | workVariable =>
    constructor
    · exact fun h => ⟨_, h, rfl⟩
    · rintro ⟨v | l, hm, hx⟩
      · cases v with
        | work k =>
          obtain rfl : k = 4294967295 := UInt32.toNat_inj.mp (Option.some.inj hx)
          exact hm
        | _ => cases hx
      · cases hx
  | label =>
    constructor
    · rintro ⟨zeros, h⟩
      exact ⟨_, h, Label.number?_eq_some_iff.mpr ⟨by decide, zeros, rfl⟩⟩
    · rintro ⟨v | l, hm, hx⟩
      · cases v <;> cases hx
      · obtain ⟨-, zeros, rfl⟩ := Label.number?_eq_some_iff.mp hx
        exact ⟨zeros, hm⟩

theorem spent_iff :
    Spent seed kind ↔ kind.limit ≤ (above seed).next kind := by
  have hone := kind.one_lt_limit
  rw [spent_iff_mentioned]
  constructor
  · rintro ⟨x, hm, hx⟩
    have := (next_above_le_iff.mp (Nat.le_refl _)).2 x hm _ hx
    omega
  · intro h
    by_contra hnone
    have hle : (above seed).next kind ≤ kind.limit - 1 := by
      refine next_above_le_iff.mpr ⟨by omega, fun x hm number hx => ?_⟩
      have hlt := NameKind.number?_lt_limit hx
      have hne : number ≠ kind.limit - 1 := fun e => hnone ⟨x, hm, e ▸ hx⟩
      omega
    omega

/-! ## Fresh until exhausted -/

theorem count_take_le {j j' : Nat} (h : j ≤ j') (requests : List NameKind) (kind : NameKind) :
    (requests.take j).count kind ≤ (requests.take j').count kind :=
  (List.take_sublist_take_left h).count_le kind

theorem count_take_lt {j j' : Nat} (h : j < j') (hj : requests[j]? = some kind) :
    (requests.take j).count kind < (requests.take j').count kind := by
  have hle := count_take_le h requests kind
  rw [List.take_add_one, hj, List.count_append] at hle
  have hone : (some kind).toList.count kind = 1 := List.count_singleton_self
  omega

/-- The request that came after `m` others of its kind. -/
theorem exists_request {j m : Nat} (h : m < (requests.take j).count kind) :
    ∃ j', j' < j ∧ requests[j']? = some kind ∧ (requests.take j').count kind = m := by
  induction j with
  | zero => cases h
  | succ j ih =>
    by_cases hm : m < (requests.take j).count kind
    · obtain ⟨j', hlt, hj'⟩ := ih hm
      exact ⟨j', Nat.lt_succ_of_lt hlt, hj'⟩
    rw [List.take_add_one, List.count_append] at h
    cases hj : requests[j]? with
    | none => rw [hj] at h; exact absurd h hm
    | some kind' =>
      rw [hj] at h
      have hone : (some kind').toList.count kind = if kind' = kind then 1 else 0 := by
        simp [List.count_singleton]
      rw [hone] at h
      by_cases hk : kind' = kind
      · rw [if_pos hk] at h
        exact ⟨j, Nat.lt_succ_self j, hj.trans (congrArg some hk), by omega⟩
      · rw [if_neg hk] at h
        exact absurd h hm

/-- What `answers` gives for each series of requests, above a seed. -/
structure Fresh (seed : List Instruction)
    (answers : List NameKind → List (Except Fault (Variable ⊕ Label))) : Prop where
  length (requests : List NameKind) : (answers requests).length = requests.length
  answered (requests : List NameKind) (j : Nat) (kind : NameKind) (hj : requests[j]? = some kind) :
    (∃ number < kind.limit, (answers requests)[j]? = some (.ok (kind.name number))) ∨
      (answers requests)[j]? = some (.error (.namesExhausted kind))
  distinct (requests : List NameKind) (j j' : Nat) (x : Variable ⊕ Label) :
    (answers requests)[j]? = some (.ok x) → (answers requests)[j']? = some (.ok x) → j = j'
  unused (requests : List NameKind) (j : Nat) (x : Variable ⊕ Label) :
    (answers requests)[j]? = some (.ok x) → ¬ Mentioned seed x
  /-- The requests of one kind get what they would get without the others. -/
  separate (requests : List NameKind) (kind : NameKind) :
    ((requests.zip (answers requests)).filter (·.1 = kind)).map (·.2) =
      answers (requests.filter (· = kind))
  /-- A request fails exactly if the largest number of its kind is in the seed or handed out. -/
  exhausted (requests : List NameKind) (j : Nat) (kind : NameKind) (hj : requests[j]? = some kind) :
    (answers requests)[j]? = some (.error (.namesExhausted kind)) ↔
      Spent seed kind ∨ ∃ j' < j, (answers requests)[j']? = some (.ok kind.last)
  lasting (requests : List NameKind) (j j' : Nat) (kind : NameKind) (hle : j ≤ j')
    (hj : requests[j]? = some kind) (hj' : requests[j']? = some kind) :
    (answers requests)[j]? = some (.error (.namesExhausted kind)) →
      (answers requests)[j']? = some (.error (.namesExhausted kind))

theorem length_answers (n : Names) (requests : List NameKind) :
    (n.answers requests).length = requests.length := by
  induction requests generalizing n with
  | nil => rfl
  | cons kind requests ih => rw [answers_cons, List.length_cons, List.length_cons, ih]

/-- No two requests get one name. -/
theorem answers_distinct {j j' : Nat} {x : Variable ⊕ Label}
    (hj : (n.answers requests)[j]? = some (.ok x))
    (hj' : (n.answers requests)[j']? = some (.ok x)) : j = j' := by
  obtain ⟨kind, hk, hlt, rfl⟩ := getElem?_answers_ok hj
  obtain ⟨kind', hk', hlt', hname⟩ := getElem?_answers_ok hj'
  obtain ⟨rfl, hcount⟩ := NameKind.name_inj hlt hlt' hname
  rcases Nat.lt_trichotomy j j' with h | h | h
  · have := count_take_lt h hk
    omega
  · exact h
  · have := count_take_lt h hk'
    omega

/-- The numbers of a kind are used up by the seed, or by the request that got the last of them. -/
theorem limit_reached_iff {j : Nat} :
    kind.limit ≤ (above seed).next kind + (requests.take j).count kind ↔
      Spent seed kind ∨ ∃ j' < j, ((above seed).answers requests)[j']? = some (.ok kind.last) := by
  have hone := kind.one_lt_limit
  rw [spent_iff]
  constructor
  · intro h
    by_cases hs : kind.limit ≤ (above seed).next kind
    · exact .inl hs
    -- the request for the largest number
    have hpast : kind.limit - 1 - (above seed).next kind < (requests.take j).count kind := by
      omega
    obtain ⟨j', hlt, hj', hcount⟩ := exists_request hpast
    have hnumber : (above seed).next kind + (requests.take j').count kind = kind.limit - 1 := by
      omega
    refine .inr ⟨j', hlt, ?_⟩
    rw [getElem?_answers_of_lt hj' (by omega), hnumber, NameKind.name_last]
  · rintro (hs | ⟨j', hlt, hlast⟩)
    · omega
    · obtain ⟨kind', hk, hlimit, hname⟩ := getElem?_answers_ok hlast
      rw [← NameKind.name_last] at hname
      obtain ⟨rfl, hnumber⟩ := NameKind.name_inj (by omega) hlimit hname
      have := count_take_lt hlt hk
      omega

/-- A supply above a seed hands out distinct names that the seed does not mention, the requests of
one kind do not matter for the other, and a kind ends exactly with its largest number. -/
theorem fresh_until_exhausted (seed : List Instruction) : Fresh seed (above seed).answers where
  length := length_answers _
  answered := by
    intro requests j kind hj
    by_cases h : (above seed).next kind + (requests.take j).count kind < kind.limit
    · exact .inl ⟨_, h, getElem?_answers_of_lt hj h⟩
    · exact .inr ((getElem?_answers_error_iff hj).mpr (Nat.not_lt.mp h))
  distinct := fun _ _ _ _ => answers_distinct
  unused := by
    intro requests j x hx
    obtain ⟨kind, -, hlt, rfl⟩ := getElem?_answers_ok hx
    exact not_mentioned_name (Nat.le_add_right _ _) hlt
  separate := filter_answers _
  exhausted := fun _ _ _ hj => (getElem?_answers_error_iff hj).trans limit_reached_iff
  lasting := by
    intro requests j j' kind hle hj hj' herror
    refine (getElem?_answers_error_iff hj').mpr ?_
    exact Nat.le_trans ((getElem?_answers_error_iff hj).mp herror)
      (Nat.add_le_add_left (count_take_le hle requests kind) _)

/-- One label is left, and one work variable. -/
example : (above [⟨.named "L018446744073709551614", .goto (.named "L7")⟩,
      ⟨.empty, .assign .result (.work 4294967294)⟩]).answers
        [.label, .workVariable, .label, .workVariable] =
    [.ok (.inr (.named "L18446744073709551615")), .ok (.inl (.work 4294967295)),
      .error (.namesExhausted .label), .error (.namesExhausted .workVariable)] := by
  cbv

end Names

end SLanguage
