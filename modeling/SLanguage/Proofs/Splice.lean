import SLanguage.Proofs.Templates
import SLanguage.Proofs.WellFormed

/-!
# The names of a copy

The copy of a body renames every variable of the body, and the result, to a work variable drawn for
it, and every label that stands in the body to a label drawn for it. Different names stay different,
because the drawn ones are. The block is a prelude that fills the holders and zeroes the other
variables, then the renamed body, then the answer (`block_eq`); the prelude is never empty, so the
label of the call falls on it and no label of the body is lost.
-/

namespace SLanguage

/-! ## Association lists -/

section
variable {α β : Type} [BEq α] [LawfulBEq α] {ps : List (α × β)} {k k' : α} {v : β}

theorem mem_of_lookup (h : ps.lookup k = some v) : (k, v) ∈ ps := by
  obtain ⟨l₁, l₂, e, -⟩ := List.lookup_eq_some_iff.mp h
  rw [e]; simp

theorem exists_lookup (h : k ∈ ps.map (·.1)) : ∃ v, ps.lookup k = some v := by
  rw [← Option.isSome_iff_exists, List.lookup_isSome_iff]
  obtain ⟨p, hp, rfl⟩ := List.mem_map.mp h
  exact ⟨p, hp, by simp⟩

/-- Look-up is injective when no value stands twice. -/
theorem lookup_inj (hnd : (ps.map (·.2)).Nodup) (h : ps.lookup k = some v)
    (h' : ps.lookup k' = some v) : k = k' := by
  have := List.inj_on_of_nodup_map hnd (mem_of_lookup h) (mem_of_lookup h') rfl
  exact congrArg Prod.fst this

/-- With distinct keys look-up finds every pair. -/
theorem lookup_of_mem (hnd : (ps.map (·.1)).Nodup) (h : (k, v) ∈ ps) : ps.lookup k = some v := by
  obtain ⟨w, hw⟩ := exists_lookup (List.mem_map.mpr ⟨_, h, rfl⟩)
  have := List.inj_on_of_nodup_map hnd h (mem_of_lookup hw) rfl
  have e : v = w := congrArg Prod.snd this
  rw [e]; exact hw

end

namespace Splice

variable {s : Splice} {c : Call} {body : List Instruction}

theorem mem_varsOf {v : Variable} : v ∈ varsOf body ↔
    v.isConstant = false ∧ (v = .result ∨ ∃ i ∈ body, v ∈ i.vars) := by
  rw [varsOf, Std.TreeSet.mem_toList, Std.TreeSet.mem_ofList]
  simp only [List.contains_iff_mem, List.mem_filter, List.mem_cons, List.mem_flatMap,
    Bool.not_eq_true', and_comm]

theorem mem_labelsOf {l : Label} : l ∈ labelsOf body ↔ l ∈ attached body :=
  List.mem_eraseDups

/-! ## Variables -/

theorem map_snd_inputs (holders : List Variable) : (inputs holders).map (·.2) = holders := by
  rw [inputs, List.map_map]
  exact List.zipIdx_map_fst 0 holders

/-- The variables that the copy renames, with their new names. -/
def pairs (s : Splice) : List (Variable × Variable) := inputs s.holders ++ s.locals

theorem map_snd_pairs (s : Splice) :
    s.pairs.map (·.2) = s.holders ++ s.locals.map (·.2) := by
  rw [pairs, List.map_append, map_snd_inputs]

theorem Names.mem_pairs (hs : s.Names c body) {v : Variable} (hv : v ∈ varsOf body) :
    v ∈ s.pairs.map (·.1) := by
  rw [pairs, List.map_append, List.mem_append]
  by_cases h : v ∈ (inputs s.holders).map (·.1)
  · exact .inl h
  · rw [hs.locals]
    exact .inr (List.mem_filter.mpr ⟨hv, by simpa using h⟩)

/-- A variable of the body becomes one that was drawn. -/
theorem Names.lookup_pairs (hs : s.Names c body) {v : Variable} (hv : v ∈ varsOf body) :
    s.pairs.lookup v = some (s.renameVariable v) := by
  obtain ⟨w, hw⟩ := exists_lookup (hs.mem_pairs hv)
  rw [renameVariable, ← pairs, hw]; rfl

theorem Names.renameVariable_mem (hs : s.Names c body) {v : Variable} (hv : v ∈ varsOf body) :
    s.renameVariable v ∈ s.holders ++ s.locals.map (·.2) := by
  rw [← map_snd_pairs]
  exact List.mem_map.mpr ⟨_, mem_of_lookup (hs.lookup_pairs hv), rfl⟩

theorem Names.renameVariable_inj (hs : s.Names c body)
    (hnd : (s.holders ++ s.locals.map (·.2)).Nodup) {v w : Variable} (hv : v ∈ varsOf body)
    (hw : w ∈ varsOf body) (h : s.renameVariable v = s.renameVariable w) : v = w := by
  rw [← map_snd_pairs] at hnd
  have := hs.lookup_pairs hw
  rw [← h] at this
  exact lookup_inj hnd (hs.lookup_pairs hv) this

theorem Names.renameVariable_constant (hs : s.Names c body) {v : Variable}
    (hv : v.isConstant = true) : s.renameVariable v = v := by
  have hn : v ∉ s.pairs.map (·.1) := by
    rw [pairs, List.map_append, List.mem_append, hs.locals]
    rintro (h | h)
    · obtain ⟨⟨w, z⟩, hw, rfl⟩ := List.mem_map.mp h
      obtain ⟨⟨h', k⟩, -, e⟩ := List.mem_map.mp hw
      cases e; cases hv
    · have := (mem_varsOf.mp (List.mem_of_mem_filter h)).1
      rw [hv] at this; cases this
  have : s.pairs.lookup v = none := by
    rw [List.lookup_eq_none_iff]
    intro p hp
    have : v ≠ p.1 := fun e => hn (List.mem_map.mpr ⟨p, hp, e.symm⟩)
    simpa using this
  rw [renameVariable, ← pairs, this]; rfl

/-- What a copy reads: the variables that it renames, and constants. -/
def InPlay (body : List Instruction) (v : Variable) : Prop :=
  v.isConstant = true ∨ v ∈ varsOf body

theorem inPlay_of_mem {i : Instruction} (hi : i ∈ body) {v : Variable} (hv : v ∈ i.vars) :
    InPlay body v := by
  cases hc : v.isConstant with
  | true => exact .inl hc
  | false => exact .inr (mem_varsOf.mpr ⟨hc, .inr ⟨i, hi, hv⟩⟩)

/-- Renaming keeps what is in play apart. -/
theorem Names.renameVariable_injOn (hs : s.Names c body)
    (hnd : (s.holders ++ s.locals.map (·.2)).Nodup)
    (hw : ∀ w ∈ s.holders ++ s.locals.map (·.2), w.isConstant = false) {v w : Variable}
    (hv : InPlay body v) (hw' : InPlay body w) (h : s.renameVariable v = s.renameVariable w) :
    v = w := by
  rcases hv with hcv | hv <;> rcases hw' with hcw | hw'
  · rwa [hs.renameVariable_constant hcv, hs.renameVariable_constant hcw] at h
  · have := hw _ (hs.renameVariable_mem hw')
    rw [← h, hs.renameVariable_constant hcv, hcv] at this; cases this
  · have := hw _ (hs.renameVariable_mem hv)
    rw [h, hs.renameVariable_constant hcw, hcw] at this; cases this
  · exact hs.renameVariable_inj hnd hv hw' h

/-! ## Labels -/

theorem Names.renameLabel_mem (hs : s.Names c body) {l : Label} (hl : l ∈ attached body) :
    s.renameLabel l ∈ s.labels.map (·.2) ∧ s.labels.lookup l = some (s.renameLabel l) := by
  have hk : l ∈ s.labels.map (·.1) := by rw [hs.labels]; exact mem_labelsOf.mpr hl
  obtain ⟨m, hm⟩ := exists_lookup hk
  have e : s.renameLabel l = m := by
    obtain ⟨hn, -⟩ := mem_attached.mp hl
    cases l with
    | named name => rw [renameLabel, hm]; rfl
    | empty => cases hn
    | exit => cases hn
  rw [e]
  exact ⟨List.mem_map.mpr ⟨_, mem_of_lookup hm, rfl⟩, hm⟩

/-- A label that does not stand in the body keeps its name. -/
theorem Names.renameLabel_of_not_mem (hs : s.Names c body) {l : Label} (hx : l ≠ .exit)
    (hl : l ∉ attached body) : s.renameLabel l = l := by
  cases l with
  | empty => rfl
  | exit => exact absurd rfl hx
  | named name =>
    have hnone : s.labels.lookup (.named name) = none := by
      refine List.lookup_eq_none_iff.mpr fun p hp => ?_
      have hne : Label.named name ≠ p.1 := by
        intro e
        refine hl (mem_labelsOf.mp ?_)
        rw [← hs.labels, e]
        exact List.mem_map.mpr ⟨p, hp, rfl⟩
      simpa using hne
    rw [renameLabel, hnone]
    rfl

/-! ## The block -/

/-- The instructions before the body: the arguments into their holders, zero into the rest. -/
def prelude (s : Splice) (c : Call) : List Instruction :=
  List.zipWith (fun holder a => ⟨.empty, load holder a⟩) s.holders c.arguments ++
    s.locals.map fun (_, z) => ⟨.empty, .zero z⟩

/-- The body under its new names. -/
def copy (s : Splice) (body : List Instruction) : List Instruction :=
  body.map (·.rename s.renameVariable s.renameLabel)

theorem Names.prelude_ne_nil (hs : s.Names c body) : s.prelude c ≠ [] := by
  have hr : (.result : Variable) ∈ s.locals.map (·.1) := by
    rw [hs.locals]
    refine List.mem_filter.mpr ⟨mem_varsOf.mpr ⟨rfl, .inl rfl⟩, ?_⟩
    simp [inputs, Variable.ofInputIndex]
  obtain ⟨p, hp, -⟩ := List.mem_map.mp hr
  intro h
  have := (List.append_eq_nil_iff.mp h).2
  rw [List.map_eq_nil_iff] at this
  rw [this] at hp; cases hp

theorem relabelFirst_append {l : Label} {xs ys : List Instruction} (h : xs ≠ []) :
    relabelFirst l (xs ++ ys) = relabelFirst l xs ++ ys := by
  cases xs with
  | nil => exact absurd rfl h
  | cons x xs => rfl

theorem Names.block_eq (hs : s.Names c body) (l : Label) (v : Variable) :
    s.block l v c body = relabelFirst l (s.prelude c) ++
      (s.copy body ++ [⟨s.finish, .assign v (s.renameVariable .result)⟩]) := by
  rw [block, List.append_assoc, ← prelude, relabelFirst_append hs.prelude_ne_nil]
  rfl

theorem mem_relabelFirst {l : Label} {xs : List Instruction} {j : Instruction}
    (h : j ∈ relabelFirst l xs) :
    ∃ i ∈ xs, j.command = i.command ∧ (j.label = l ∨ j.label = i.label) := by
  cases xs with
  | nil => cases h
  | cons x xs =>
    rcases List.mem_cons.mp h with rfl | h
    · exact ⟨x, by simp, rfl, .inl rfl⟩
    · exact ⟨j, by simp [h], rfl, .inr rfl⟩

theorem exists_mem_relabelFirst (l : Label) {xs : List Instruction} {i : Instruction}
    (h : i ∈ xs) : ∃ j ∈ relabelFirst l xs, j.command = i.command := by
  cases xs with
  | nil => cases h
  | cons x xs =>
    rcases List.mem_cons.mp h with rfl | h
    · exact ⟨_, List.mem_cons_self .., rfl⟩
    · exact ⟨i, List.mem_cons_of_mem _ h, rfl⟩

/-- Every argument is loaded. -/
theorem Names.exists_load (hs : s.Names c body) {a : Argument} (ha : a ∈ c.arguments)
    (l : Label) (v : Variable) :
    ∃ holder ∈ s.holders, ∃ j ∈ s.block l v c body, j.command = load holder a := by
  obtain ⟨k, hk⟩ := List.getElem?_of_mem ha
  obtain ⟨hlt, -⟩ := List.getElem?_eq_some_iff.mp hk
  rw [← hs.holders] at hlt
  have hh : s.holders[k]? = some s.holders[k] := List.getElem?_eq_getElem hlt
  have hm : ⟨.empty, load s.holders[k] a⟩ ∈ s.prelude c := by
    refine List.mem_append_left _ (List.mem_of_getElem? (i := k) ?_)
    rw [List.getElem?_zipWith, hh, hk]
  obtain ⟨j, hj, e⟩ := exists_mem_relabelFirst l hm
  refine ⟨_, List.mem_of_getElem? hh, j, ?_, e⟩
  rw [hs.block_eq]
  exact List.mem_append_left _ hj

theorem Names.copy_subset (hs : s.Names c body) (l : Label) (v : Variable) :
    s.copy body ⊆ s.block l v c body := by
  rw [hs.block_eq]
  exact fun j hj => List.mem_append_right _ (List.mem_append_left _ hj)

theorem Names.answer_mem (hs : s.Names c body) (l : Label) (v : Variable) :
    ⟨s.finish, .assign v (s.renameVariable .result)⟩ ∈ s.block l v c body := by
  rw [hs.block_eq]
  exact List.mem_append_right _ (List.mem_append_right _ (List.mem_singleton.mpr rfl))

/-- What stands in the prelude. -/
theorem mem_prelude {j : Instruction} (h : j ∈ s.prelude c) : j.label = .empty ∧
    ((∃ holder ∈ s.holders, ∃ a ∈ c.arguments, j.command = load holder a) ∨
      ∃ z ∈ s.locals.map (·.2), j.command = .zero z) := by
  rcases List.mem_append.mp h with h | h
  · rw [← List.map_uncurry_zip_eq_zipWith] at h
    obtain ⟨⟨holder, a⟩, hm, rfl⟩ := List.mem_map.mp h
    obtain ⟨h1, h2⟩ := List.of_mem_zip hm
    exact ⟨rfl, .inl ⟨holder, h1, a, h2, rfl⟩⟩
  · obtain ⟨p, hp, rfl⟩ := List.mem_map.mp h
    exact ⟨rfl, .inr ⟨p.2, List.mem_map.mpr ⟨p, hp, rfl⟩, rfl⟩⟩

/-- What stands in a splice: loads and zeros, the copy, and the answer. -/
theorem Names.mem_block (hs : s.Names c body) {l : Label} {v : Variable} {j : Instruction}
    (h : j ∈ s.block l v c body) :
    ((j.label = l ∨ j.label = .empty) ∧
      ((∃ holder ∈ s.holders, ∃ a ∈ c.arguments, j.command = load holder a) ∨
        ∃ z ∈ s.locals.map (·.2), j.command = .zero z)) ∨
    (∃ i ∈ body, j = i.rename s.renameVariable s.renameLabel) ∨
    j = ⟨s.finish, .assign v (s.renameVariable .result)⟩ := by
  rw [hs.block_eq] at h
  rcases List.mem_append.mp h with h | h
  · obtain ⟨j', hj', e, hl⟩ := mem_relabelFirst h
    obtain ⟨hl', hcommand⟩ := mem_prelude hj'
    rw [hl'] at hl
    rw [e]
    exact .inl ⟨hl, hcommand⟩
  rcases List.mem_append.mp h with h | h
  · obtain ⟨i, hi, rfl⟩ := List.mem_map.mp h
    exact .inr (.inl ⟨i, hi, rfl⟩)
  · exact .inr (.inr (List.mem_singleton.mp h))

end Splice

end SLanguage
