import SLanguage.Proofs.Effects

/-!
# Runs of a sequence as a relation

A spot is a position in a sequence and a frame. `Moves r code c c'` is one step;
`Reaches r code P c` says that the run from `c` comes to a spot with `P`; `Ends r code n c g` says
that it ends after `n` steps with the frame `g`. Steps are determined when no label stands twice
(`Moves.unique`), so a run that ends comes through every spot that it reaches (`Ends.after`).
-/

namespace SLanguage

/-- Where control goes from a command: `next` is the position after it. -/
inductive Goes (code : List Instruction) (next : Nat) : Signal → Nat → Prop where
  | next : Goes code next .next next
  | halt : Goes code next .halt code.length
  | jump {l : Label} {pc : Nat} {i : Instruction} (hn : l.isNamed = true)
      (hi : code[pc]? = some i) (hl : i.label = l) : Goes code next (.jump l) pc

/-- A position and a frame. -/
abbrev Spot := Nat × Frame

/-- One step. -/
def Moves (r : Registry) (code : List Instruction) (c c' : Spot) : Prop :=
  ∃ i signal, code[c.1]? = some i ∧ i.command.Executes r c.2 c'.2 signal ∧
    Goes code (c.1 + 1) signal c'.1

/-- The run comes to a spot with `P`. -/
inductive Reaches (r : Registry) (code : List Instruction) (P : Spot → Prop) : Spot → Prop where
  | here {c : Spot} (h : P c) : Reaches r code P c
  | move {c c' : Spot} (h : Moves r code c c') (hr : Reaches r code P c') : Reaches r code P c

/-- The run ends after `n` steps. -/
inductive Ends (r : Registry) (code : List Instruction) : Nat → Spot → Frame → Prop where
  | stop {c : Spot} (h : code.length ≤ c.1) : Ends r code 0 c c.2
  | move {n : Nat} {c c' : Spot} {g : Frame} (h : Moves r code c c') (he : Ends r code n c' g) :
      Ends r code (n + 1) c g

variable {r : Registry} {code : List Instruction}

/-! ## Labels -/

/-- A label that stands once stands in one place. -/
theorem position_unique (hu : (attached code).Nodup) {p q : Nat} {i j : Instruction}
    (hi : code[p]? = some i) (hj : code[q]? = some j) (hl : i.label = j.label)
    (hn : i.label.isNamed = true) : p = q := by
  obtain ⟨t, ht⟩ : ∃ t, LabelTable.ofCode code .program = .ok t := LabelTable.exists_ofCode hu
  have hp := (LabelTable.position?_ofCode ht i.label p).mpr ⟨hn, i, hi, rfl⟩
  have hq := (LabelTable.position?_ofCode ht i.label q).mpr ⟨hn, j, hj, hl.symm⟩
  rw [hp] at hq
  exact Option.some.inj hq

theorem Goes.unique (hu : (attached code).Nodup) {next pc pc' : Nat} {signal : Signal}
    (h : Goes code next signal pc) (h' : Goes code next signal pc') : pc = pc' := by
  cases h with
  | next => cases h'; rfl
  | halt => cases h'; rfl
  | jump hn hi hl =>
    cases h' with
    | jump _ hj hl' => exact position_unique hu hi hj (hl.trans hl'.symm) (hl ▸ hn)

/-- A jump does not depend on where it is made. -/
theorem Goes.goto {next next' pc : Nat} {l : Label} (h : Goes code next (.goto l) pc) :
    Goes code next' (.goto l) pc := by
  cases l with
  | exit => cases h; exact .halt
  | empty => cases h with | jump hn _ _ => cases hn
  | named name => cases h with | jump hn hi hl => exact .jump hn hi hl

/-- Where the targets of a sequence stand, every signal leads somewhere. -/
theorem exists_goes {i : Instruction}
    (ht : ∀ l, i.target? = some l → l = .exit ∨ l ∈ attached code) {f f' : Frame} {signal : Signal}
    (h : i.command.Executes r f f' signal) (next : Nat) : ∃ pc, Goes code next signal pc := by
  cases signal with
  | next => exact ⟨_, .next⟩
  | halt => exact ⟨_, .halt⟩
  | jump l =>
    obtain ⟨w, -, he⟩ := h
    obtain ⟨hl, hx⟩ := Command.execute_jump he
    rcases ht l hl with rfl | hm
    · exact absurd rfl hx
    · obtain ⟨hn, j, hj, rfl⟩ := mem_attached.mp hm
      obtain ⟨pc, hpc⟩ := List.getElem?_of_mem hj
      exact ⟨pc, .jump hn hpc rfl⟩

/-! ## Runs -/

theorem Moves.unique (hu : (attached code).Nodup) {c c1 c2 : Spot} (h : Moves r code c c1)
    (h' : Moves r code c c2) : c1 = c2 := by
  obtain ⟨i, signal, hi, he, hg⟩ := h
  obtain ⟨i', signal', hi', he', hg'⟩ := h'
  rw [hi] at hi'; cases hi'
  obtain ⟨hf, rfl⟩ := he.unique he'
  exact Prod.ext (hg.unique hu hg') hf

theorem Moves.lt {c c' : Spot} (h : Moves r code c c') : c.1 < code.length := by
  obtain ⟨i, signal, hi, -⟩ := h
  exact (List.getElem?_eq_some_iff.mp hi).1

theorem Moves.le {c c' : Spot} (h : Moves r code c c') : c'.1 ≤ code.length := by
  have hlt := h.lt
  obtain ⟨i, signal, -, -, hg⟩ := h
  generalize c'.1 = pc at hg
  cases hg with
  | next => exact hlt
  | halt => exact Nat.le_refl _
  | jump _ hi _ => exact Nat.le_of_lt (List.getElem?_eq_some_iff.mp hi).1

theorem Reaches.bind {P Q : Spot → Prop} {c : Spot} (h : Reaches r code P c)
    (hk : ∀ c, P c → Reaches r code Q c) : Reaches r code Q c := by
  induction h with
  | here h => exact hk _ h
  | move h _ ih => exact .move h ih

theorem Reaches.mono {P Q : Spot → Prop} {c : Spot} (h : Reaches r code P c)
    (hk : ∀ c, P c → Q c) : Reaches r code Q c :=
  h.bind fun c hc => .here (hk c hc)

theorem Reaches.ends {P : Spot → Prop} {c : Spot} (h : Reaches r code P c) {Q : Frame → Prop}
    (hk : ∀ c, P c → ∃ n g, Ends r code n c g ∧ Q g) : ∃ n g, Ends r code n c g ∧ Q g := by
  induction h with
  | here h => exact hk _ h
  | move h _ ih =>
    obtain ⟨n, g, he, hq⟩ := ih
    exact ⟨n + 1, g, .move h he, hq⟩

/-- A run that ends comes through every spot that it reaches. -/
theorem Ends.after (hu : (attached code).Nodup) {P : Spot → Prop} {c : Spot} {n : Nat} {g : Frame}
    (he : Ends r code n c g) (h : Reaches r code P c) :
    ∃ m c', m ≤ n ∧ P c' ∧ Ends r code m c' g := by
  induction h generalizing n with
  | here h => exact ⟨n, _, Nat.le_refl n, h, he⟩
  | move h _ ih =>
    cases he with
    | stop ho => exact absurd h.lt (Nat.not_lt.mpr ho)
    | move h' he =>
      rw [h'.unique hu h] at he
      obtain ⟨m, c', hm, hp, he⟩ := ih he
      exact ⟨m, c', Nat.le_succ_of_le hm, hp, he⟩

theorem Ends.unique (hu : (attached code).Nodup) {c : Spot} {m n : Nat} {g g' : Frame}
    (h : Ends r code m c g) (h' : Ends r code n c g') : g = g' := by
  induction h generalizing n with
  | stop ho =>
    cases h' with
    | stop _ => rfl
    | move h' _ => exact absurd h'.lt (Nat.not_lt.mpr ho)
  | move h _ ih =>
    cases h' with
    | stop ho => exact absurd h.lt (Nat.not_lt.mpr ho)
    | move h' he' => exact ih (h.unique hu h' ▸ he')

/-- A run that ends executes the instruction where it stands. -/
theorem Ends.step {c : Spot} {n : Nat} {g : Frame} (he : Ends r code n c g) {i : Instruction}
    (hi : code[c.1]? = some i) : ∃ m f' signal pc', n = m + 1 ∧
      i.command.Executes r c.2 f' signal ∧ Goes code (c.1 + 1) signal pc' ∧
      Ends r code m (pc', f') g := by
  cases he with
  | stop ho =>
    have := (List.getElem?_eq_some_iff.mp hi).1
    omega
  | move h he =>
    obtain ⟨i', signal, hi', hx, hg⟩ := h
    rw [hi] at hi'; cases hi'
    exact ⟨_, _, signal, _, rfl, hx, hg, he⟩

end SLanguage
