import Mathlib.Data.List.Nodup
import SLanguage.Names

/-!
# Fresh names are new

A name is old for `n : Names` when its number is below the next one. `Draws n n' works labels`: the
supply went from `n` to `n'` and handed out exactly these names, which are new, distinct and, by
`number?_numbered`, not the text of any old label.
-/

namespace SLanguage

namespace Label

/-- A numbered label reads back as its number. -/
theorem number?_numbered {n : Nat} (h : n < numberLimit) : (numbered n).number? = some n := by
  have e : ("L" ++ toString n).toList = 'L' :: Nat.toDigits 10 n := by
    simp
  have hd : ∀ c ∈ Nat.toDigits 10 n, c.isDigit = true := fun c hc =>
    Nat.isDigit_of_mem_toDigits (by decide) (by decide) hc
  have hv : Nat.ofDigitChars 10 (Nat.toDigits 10 n) 0 = n := Nat.ofDigitChars_ten_toDigits
  simp only [numbered, number?, e]
  cases hds : Nat.toDigits 10 n with
  | nil => exact absurd hds Nat.toDigits_ne_nil
  | cons d ds =>
    rw [hds] at hd hv
    simp only [hv, h, decide_true, Bool.and_true, List.all_eq_true.mpr hd, if_true]

theorem isNamed_of_number? {l : Label} {n : Nat} (h : l.number? = some n) : l.isNamed = true := by
  cases l <;> first | rfl | cases h

end Label

/-- What a bind of name-drawing computations did. -/
theorem FreshM.bind_ok {α β : Type} {x : FreshM α} {f : α → FreshM β} {n n' : Names} {b : β}
    (h : (x >>= f).run n = .ok b n') : ∃ a n1, x.run n = .ok a n1 ∧ (f a).run n1 = .ok b n' := by
  change EStateM.bind x f n = _ at h
  unfold EStateM.bind at h
  split at h
  · next a n1 hx => exact ⟨a, n1, hx, h⟩
  · cases h

theorem FreshM.bind_error {α β : Type} {x : FreshM α} {f : α → FreshM β} {n n' : Names}
    {e : Fault} (h : (x >>= f).run n = .error e n') :
    x.run n = .error e n' ∨ ∃ a n1, x.run n = .ok a n1 ∧ (f a).run n1 = .error e n' := by
  change EStateM.bind x f n = _ at h
  unfold EStateM.bind at h
  split at h
  · next a n1 hx => exact .inr ⟨a, n1, hx, h⟩
  · next e' n1 hx => cases h; exact .inl hx

theorem FreshM.bind_congr_of {α β : Type} {x : FreshM α} {P : α → Prop}
    (hx : ∀ n a n', x.run n = .ok a n' → P a) {f g : α → FreshM β} (h : ∀ a, P a → f a = g a) :
    x >>= f = x >>= g := by
  funext n
  change EStateM.bind x f n = EStateM.bind x g n
  unfold EStateM.bind
  cases hr : x n with
  | ok a n' => exact congrFun (h a (hx n a n' hr)) n'
  | error e n' => rfl

theorem FreshM.map_ok {α β : Type} {x : FreshM α} {f : α → β} {n n' : Names} {a : α}
    (h : x.run n = .ok a n') : (f <$> x).run n = .ok (f a) n' := by
  change EStateM.map f x n = _
  unfold EStateM.map
  rw [show x n = _ from h]

theorem FreshM.map_error {α β : Type} {x : FreshM α} {f : α → β} {n n' : Names} {e : Fault}
    (h : x.run n = .error e n') : (f <$> x).run n = .error e n' := by
  change EStateM.map f x n = _
  unfold EStateM.map
  rw [show x n = _ from h]

namespace Names

/-- Every work variable below the next one is old; so is every other variable. -/
def OldVar (n : Names) (v : Variable) : Prop := ∀ k, v = .work k → k.toNat < n.nextWork

def OldLabel (n : Names) (l : Label) : Prop := ∀ k, l.number? = some k → k < n.nextLabel

/-- A work variable handed out between `n` and `n'`. -/
def NewVar (n n' : Names) (v : Variable) : Prop :=
  ∃ k, v = .work k ∧ n.nextWork ≤ k.toNat ∧ k.toNat < n'.nextWork

def NewLabel (n n' : Names) (l : Label) : Prop :=
  ∃ k, l.number? = some k ∧ n.nextLabel ≤ k ∧ k < n'.nextLabel

variable {n n' n1 : Names}

/-- The supply has moved on, if at all. -/
structure Le (n n' : Names) : Prop where
  work : n.nextWork ≤ n'.nextWork
  label : n.nextLabel ≤ n'.nextLabel

theorem Le.refl (n : Names) : n.Le n := ⟨Nat.le_refl _, Nat.le_refl _⟩

theorem Le.trans (h : n.Le n1) (h' : n1.Le n') : n.Le n' :=
  ⟨Nat.le_trans h.work h'.work, Nat.le_trans h.label h'.label⟩

theorem Le.oldVar (h : n.Le n') {v : Variable} (hv : n.OldVar v) : n'.OldVar v :=
  fun k hk => Nat.lt_of_lt_of_le (hv k hk) h.work

theorem Le.oldLabel (h : n.Le n') {l : Label} (hl : n.OldLabel l) : n'.OldLabel l :=
  fun k hk => Nat.lt_of_lt_of_le (hl k hk) h.label

theorem NewVar.ne_old {v w : Variable} (hv : n.NewVar n' v) (hw : n.OldVar w) : v ≠ w := by
  obtain ⟨k, rfl, hk, -⟩ := hv
  rintro rfl
  have := hw k rfl
  omega

theorem NewLabel.ne_old {l m : Label} (hl : n.NewLabel n' l) (hm : n.OldLabel m) : l ≠ m := by
  obtain ⟨k, hk, hle, -⟩ := hl
  rintro rfl
  have := hm k hk
  omega

theorem NewVar.isConstant {v : Variable} (h : n.NewVar n' v) : v.isConstant = false := by
  obtain ⟨k, rfl, -⟩ := h; rfl

theorem NewVar.isWellFormed {v : Variable} (h : n.NewVar n' v) (hn : 1 ≤ n.nextWork) :
    v.isWellFormed = true := by
  obtain ⟨k, rfl, hk, -⟩ := h
  have : k ≠ 0 := by rintro rfl; simp at hk; omega
  simpa [Variable.isWellFormed] using this

theorem NewLabel.isNamed {l : Label} (h : n.NewLabel n' l) : l.isNamed = true := by
  obtain ⟨k, hk, -⟩ := h; exact Label.isNamed_of_number? hk

/-- The names handed out on the way from `n` to `n'`. -/
structure Draws (n n' : Names) (works : List Variable) (labels : List Label) : Prop where
  workCount : n'.nextWork = n.nextWork + works.length
  labelCount : n'.nextLabel = n.nextLabel + labels.length
  workNodup : works.Nodup
  labelNodup : labels.Nodup
  works : ∀ w ∈ works, n.NewVar n' w
  labels : ∀ l ∈ labels, n.NewLabel n' l

namespace Draws

variable {ws ws' : List Variable} {ls ls' : List Label}

theorem le (h : Draws n n' ws ls) : n.Le n' := by
  have := h.workCount; have := h.labelCount
  constructor <;> omega

theorem oldVar_work (h : Draws n n' ws ls) {w : Variable} (hw : w ∈ ws) : n'.OldVar w := by
  obtain ⟨k, rfl, -, hk⟩ := h.works w hw
  intro k' e; cases e; exact hk

theorem oldLabel_label (h : Draws n n' ws ls) {l : Label} (hl : l ∈ ls) : n'.OldLabel l := by
  obtain ⟨k, hk, -, hlt⟩ := h.labels l hl
  intro k' e; rw [hk] at e; cases e; exact hlt

theorem refl (n : Names) : Draws n n [] [] :=
  ⟨rfl, rfl, .nil, .nil, by simp, by simp⟩

theorem append (h : Draws n n1 ws ls) (h' : Draws n1 n' ws' ls') :
    Draws n n' (ws ++ ws') (ls ++ ls') where
  workCount := by rw [h'.workCount, h.workCount, List.length_append, Nat.add_assoc]
  labelCount := by rw [h'.labelCount, h.labelCount, List.length_append, Nat.add_assoc]
  workNodup := List.nodup_append.mpr ⟨h.workNodup, h'.workNodup, fun w hw w' hw' e =>
    (h'.works w' hw').ne_old (h.oldVar_work hw) e.symm⟩
  labelNodup := List.nodup_append.mpr ⟨h.labelNodup, h'.labelNodup, fun l hl l' hl' e =>
    (h'.labels l' hl').ne_old (h.oldLabel_label hl) e.symm⟩
  works w hw := by
    rcases List.mem_append.mp hw with hw | hw
    · obtain ⟨k, rfl, hk, hlt⟩ := h.works w hw
      exact ⟨k, rfl, hk, Nat.lt_of_lt_of_le hlt h'.le.work⟩
    · obtain ⟨k, rfl, hk, hlt⟩ := h'.works w hw
      exact ⟨k, rfl, Nat.le_trans h.le.work hk, hlt⟩
  labels l hl := by
    rcases List.mem_append.mp hl with hl | hl
    · obtain ⟨k, hn, hk, hlt⟩ := h.labels l hl
      exact ⟨k, hn, hk, Nat.lt_of_lt_of_le hlt h'.le.label⟩
    · obtain ⟨k, hn, hk, hlt⟩ := h'.labels l hl
      exact ⟨k, hn, Nat.le_trans h.le.label hk, hlt⟩

end Draws

end Names

open Names

variable {n n' : Names}

theorem run_freshWork (n : Names) : freshWork.run n =
    if n.nextWork < Variable.numberLimit then
      .ok (.work (UInt32.ofNat n.nextWork)) { n with nextWork := n.nextWork + 1 }
    else .error (.namesExhausted .workVariable) n := by
  change (if n.nextWork < Variable.numberLimit then _ else _ : FreshM Variable) n = _
  split <;> rfl

theorem run_freshLabel (n : Names) : freshLabel.run n =
    if n.nextLabel < Label.numberLimit then
      .ok (.numbered n.nextLabel) { n with nextLabel := n.nextLabel + 1 }
    else .error (.namesExhausted .label) n := by
  change (if n.nextLabel < Label.numberLimit then _ else _ : FreshM Label) n = _
  split <;> rfl

theorem freshWork_ok {v : Variable} (h : freshWork.run n = .ok v n') : Draws n n' [v] [] := by
  rw [run_freshWork] at h
  split at h
  · next hlt =>
    cases h
    have hk : (UInt32.ofNat n.nextWork).toNat = n.nextWork := by
      rw [UInt32.toNat_ofNat']; exact Nat.mod_eq_of_lt hlt
    refine ⟨rfl, rfl, List.nodup_singleton _, .nil, fun w hw => ?_, by simp⟩
    rw [List.mem_singleton.mp hw]
    exact ⟨_, rfl, by omega, by rw [hk]; exact Nat.lt_succ_self _⟩
  · cases h

theorem freshLabel_ok {l : Label} (h : freshLabel.run n = .ok l n') : Draws n n' [] [l] := by
  rw [run_freshLabel] at h
  split at h
  · next hlt =>
    cases h
    refine ⟨rfl, rfl, .nil, List.nodup_singleton _, by simp, fun l hl => ?_⟩
    rw [List.mem_singleton.mp hl]
    exact ⟨_, Label.number?_numbered hlt, Nat.le_refl _, Nat.lt_succ_self _⟩
  · cases h

/-- The only fault of drawing names. -/
def Exhausted (e : Fault) : Prop := ∃ kind, e = .namesExhausted kind

/-- A drawn label is a named one. -/
theorem freshLabel_bind {α : Type} {f g : Label → FreshM α}
    (h : ∀ name, f (.named name) = g (.named name)) : freshLabel >>= f = freshLabel >>= g := by
  refine FreshM.bind_congr_of (P := fun l => l.isNamed = true) (fun _ l _ hr => ?_) fun l hl => ?_
  · exact ((freshLabel_ok hr).labels l (List.mem_singleton.mpr rfl)).isNamed
  · cases l with
    | named name => exact h name
    | _ => cases hl

theorem freshWork_error {e : Fault} (h : freshWork.run n = .error e n') : Exhausted e := by
  rw [run_freshWork] at h
  split at h <;> cases h
  exact ⟨_, rfl⟩

theorem freshLabel_error {e : Fault} (h : freshLabel.run n = .error e n') : Exhausted e := by
  rw [run_freshLabel] at h
  split at h <;> cases h
  exact ⟨_, rfl⟩

/-- Names drawn for the members of a list, one after the other. -/
theorem draws_mapM {α β : Type} {step : α → FreshM β} (works : β → List Variable)
    (labels : β → List Label) (P : α → β → Prop)
    (hstep : ∀ x n b n', (step x).run n = .ok b n' → Draws n n' (works b) (labels b) ∧ P x b)
    {xs : List α} {ys : List β} (h : (xs.mapM step).run n = .ok ys n') :
    Draws n n' (ys.flatMap works) (ys.flatMap labels) ∧ List.Forall₂ P xs ys := by
  induction xs generalizing n ys with
  | nil => rw [List.mapM_nil] at h; cases h; exact ⟨.refl _, .nil⟩
  | cons x xs ih =>
    rw [List.mapM_cons] at h
    obtain ⟨b, n1, hb, h⟩ := FreshM.bind_ok h
    obtain ⟨bs, n2, hbs, h⟩ := FreshM.bind_ok h
    cases h
    obtain ⟨h1, hx⟩ := hstep x n b n1 hb
    obtain ⟨h2, hxs⟩ := ih hbs
    exact ⟨h1.append h2, .cons hx hxs⟩

theorem mapM_error {α β : Type} {step : α → FreshM β}
    (hstep : ∀ x n e n', (step x).run n = .error e n' → Exhausted e) {xs : List α} {e : Fault}
    (h : (xs.mapM step).run n = .error e n') : Exhausted e := by
  induction xs generalizing n with
  | nil => rw [List.mapM_nil] at h; cases h
  | cons x xs ih =>
    rw [List.mapM_cons] at h
    rcases FreshM.bind_error h with h | ⟨b, n1, -, h⟩
    · exact hstep x n e n' h
    rcases FreshM.bind_error h with h | ⟨bs, n2, -, h⟩
    · exact ih h
    · cases h

/-! ## The names above a sequence -/

namespace Names

/-- Every name of the instruction is old. -/
structure Covers (n : Names) (i : Instruction) : Prop where
  vars : ∀ v ∈ i.vars, n.OldVar v
  label : n.OldLabel i.label
  target : ∀ l, i.target? = some l → n.OldLabel l

theorem Covers.mono {n n' : Names} {i : Instruction} (h : n.Covers i) (hle : n.Le n') :
    n'.Covers i :=
  ⟨fun v hv => hle.oldVar (h.vars v hv), hle.oldLabel h.label,
    fun l hl => hle.oldLabel (h.target l hl)⟩

theorem pastVariable_le (n : Names) (v : Variable) : n.Le (n.pastVariable v) := by
  cases v <;> constructor <;> simp only [pastVariable] <;> omega

theorem pastLabel_le (n : Names) (l : Label) : n.Le (n.pastLabel l) := by
  unfold pastLabel
  split
  · constructor <;> simp only <;> omega
  · exact .refl n

theorem oldVar_pastVariable (n : Names) (v : Variable) : (n.pastVariable v).OldVar v := by
  rintro k rfl
  simp only [pastVariable]
  omega

theorem oldLabel_pastLabel (n : Names) (l : Label) : (n.pastLabel l).OldLabel l := by
  intro k hk
  simp only [pastLabel, hk]
  omega

/-- A fold that only moves on leaves behind what each of its steps left behind. -/
theorem foldl_le {α : Type} {step : Names → α → Names} {Q : Names → α → Prop}
    (hle : ∀ (n : Names) x, n.Le (step n x)) (hstep : ∀ n x, Q (step n x) x)
    (hmono : ∀ (n n1 : Names) x, n.Le n1 → Q n x → Q n1 x) (xs : List α) (n : Names) :
    n.Le (xs.foldl step n) ∧ ∀ x ∈ xs, Q (xs.foldl step n) x := by
  induction xs generalizing n with
  | nil => exact ⟨.refl n, by simp⟩
  | cons x xs ih =>
    obtain ⟨h1, h2⟩ := ih (step n x)
    exact ⟨(hle n x).trans h1, by simpa using ⟨hmono _ _ _ h1 (hstep n x), h2⟩⟩

theorem past_spec (n : Names) (i : Instruction) : n.Le (n.past i) ∧ (n.past i).Covers i := by
  obtain ⟨h1, h2⟩ := foldl_le (Q := OldVar) pastVariable_le oldVar_pastVariable
    (fun _ _ _ h hv => h.oldVar hv) i.vars n
  obtain ⟨h3, h4⟩ := foldl_le (Q := OldLabel) pastLabel_le oldLabel_pastLabel
    (fun _ _ _ h hl => h.oldLabel hl) (i.label :: i.target?.toList)
    (i.vars.foldl pastVariable n)
  refine ⟨h1.trans h3, fun v hv => h3.oldVar (h2 v hv), h4 _ (by simp), fun l hl => h4 l ?_⟩
  simp [hl]

theorem above_spec (code : List Instruction) :
    1 ≤ (above code).nextWork ∧ ∀ i ∈ code, (above code).Covers i := by
  obtain ⟨h1, h2⟩ := foldl_le (Q := Covers) (fun n i => (past_spec n i).1)
    (fun n i => (past_spec n i).2) (fun _ _ _ h hc => hc.mono h) code {}
  exact ⟨h1.work, h2⟩

end Names

end SLanguage
