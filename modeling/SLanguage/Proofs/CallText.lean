import SLanguage.Proofs.CallGraph

/-!
# The text of a call tells the call

A call is written in brackets, its name first and each argument after a comma. If no function name
holds a bracket or a comma, a name or a variable ends where the next of these marks stands, so a
text is read back from left to right in one way only, whatever follows it
(`Argument.text_append_inj`). Names may be empty, and they may look like variables or numbers: what
is a call stands in brackets and what is a variable does not.
-/

namespace SLanguage

/-- None of the characters that structure the text of a call. -/
def Unmarked (s : List Char) : Prop := ∀ c ∈ s, c ≠ '(' ∧ c ≠ ')' ∧ c ≠ ','

/-- What may follow an argument or a name. -/
def Stops (rest : List Char) : Prop := ∀ c, rest.head? = some c → c = ')' ∨ c = ','

theorem stops_nil : Stops [] := by
  intro c h
  cases h

theorem stops_cons {c : Char} {rest : List Char} (h : c = ')' ∨ c = ',') : Stops (c :: rest) := by
  intro d hd
  cases hd
  exact h

theorem Unmarked.not_stops {c : Char} {s rest : List Char} (h : Unmarked (c :: s)) :
    ¬ Stops (c :: rest) := by
  intro hstop
  obtain ⟨-, hclose, hcomma⟩ := h c (.head _)
  exact (hstop c rfl).elim hclose hcomma

/-- Two texts without marks that end in the same place are the same. -/
theorem Unmarked.append_inj {s t rest rest' : List Char} (hs : Unmarked s) (ht : Unmarked t)
    (hr : Stops rest) (hr' : Stops rest') (h : s ++ rest = t ++ rest') : s = t ∧ rest = rest' := by
  induction s generalizing t with
  | nil =>
    cases t with
    | nil => exact ⟨rfl, h⟩
    | cons c t =>
      rw [List.nil_append] at h
      rw [h] at hr
      exact absurd hr ht.not_stops
  | cons c s ih =>
    cases t with
    | nil =>
      rw [List.nil_append] at h
      rw [← h] at hr'
      exact absurd hr' hs.not_stops
    | cons d t =>
      obtain ⟨rfl, htail⟩ := List.cons_eq_cons.mp h
      obtain ⟨rfl, hrest⟩ := ih (List.forall_mem_cons.mp hs).2 (List.forall_mem_cons.mp ht).2 htail
      exact ⟨rfl, hrest⟩

/-! ## Variables -/

theorem unmarked_toDigits (n : Nat) : Unmarked (Nat.toDigits 10 n) := by
  intro c hc
  have hd : c.isDigit = true := Nat.isDigit_of_mem_toDigits (by decide) (by decide) hc
  refine ⟨?_, ?_, ?_⟩ <;> rintro rfl <;> cases hd

theorem toDigits_ne_cons {n : Nat} {c : Char} {s : List Char} (hc : c.isDigit = false) :
    Nat.toDigits 10 n ≠ c :: s := by
  intro h
  have hm : c ∈ Nat.toDigits 10 n := by rw [h]; exact .head _
  rw [Nat.isDigit_of_mem_toDigits (by decide) (by decide) hm] at hc
  cases hc

namespace Variable

theorem toList_input (n : UInt32) : (input n).text.toList = 'x' :: Nat.toDigits 10 n.toNat := by
  simp [text]

theorem toList_work (n : UInt32) : (work n).text.toList = 'z' :: Nat.toDigits 10 n.toNat := by
  simp [text]

theorem toList_constant (k : Value) : (constant k).text.toList = Nat.toDigits 10 k.toNat := by
  simp [text, Word.text]

theorem toList_result : result.text.toList = ['y'] := by
  simp [text]

theorem unmarked_text (v : Variable) : Unmarked v.text.toList := by
  have letter : ∀ {c : Char} {s : List Char}, (c ≠ '(' ∧ c ≠ ')' ∧ c ≠ ',') → Unmarked s →
      Unmarked (c :: s) := fun hc hs => List.forall_mem_cons.mpr ⟨hc, hs⟩
  cases v with
  | result => rw [toList_result]; exact letter (by decide) (List.forall_mem_nil _)
  | input n => rw [toList_input]; exact letter (by decide) (unmarked_toDigits _)
  | work n => rw [toList_work]; exact letter (by decide) (unmarked_toDigits _)
  | constant k => rw [toList_constant]; exact unmarked_toDigits _

/-- Reads the text of a variable. -/
def ofChars : List Char → Variable
  | 'y' :: _ => result
  | 'x' :: digits => input (UInt32.ofNat (Nat.ofDigitChars 10 digits 0))
  | 'z' :: digits => work (UInt32.ofNat (Nat.ofDigitChars 10 digits 0))
  | digits => constant (UInt64.ofNat (Nat.ofDigitChars 10 digits 0))

theorem ofChars_text (v : Variable) : ofChars v.text.toList = v := by
  cases v with
  | result => rw [toList_result, ofChars]
  | input n => rw [toList_input, ofChars, Nat.ofDigitChars_ten_toDigits, UInt32.ofNat_toNat]
  | work n => rw [toList_work, ofChars, Nat.ofDigitChars_ten_toDigits, UInt32.ofNat_toNat]
  | constant k =>
    rw [toList_constant, ofChars, Nat.ofDigitChars_ten_toDigits, UInt64.ofNat_toNat]
    -- a number starts with none of the three letters
    all_goals exact fun _ => toDigits_ne_cons rfl

end Variable

/-! ## Call trees -/

namespace Argument

theorem toList_call (name : String) (as : List Argument) (rest : List Char) :
    (call name as).text.toList ++ rest =
      '(' :: (name.toList ++ ((listText as).toList ++ ')' :: rest)) := by
  simp [text]

theorem toList_listText_cons (a : Argument) (as : List Argument) (rest : List Char) :
    (listText (a :: as)).toList ++ rest =
      ',' :: (a.text.toList ++ ((listText as).toList ++ rest)) := by
  simp [listText]

theorem stops_listText (as : List Argument) (rest : List Char) :
    Stops ((listText as).toList ++ ')' :: rest) := by
  cases as with
  | nil => exact stops_cons (.inl rfl)
  | cons a as =>
    rw [toList_listText_cons]
    exact stops_cons (.inr rfl)

theorem leaf_ne_call {v : Variable} {rest s : List Char} (hr : Stops rest) :
    (leaf v).text.toList ++ rest ≠ '(' :: s := by
  intro h
  have hv : Unmarked (leaf v).text.toList := v.unmarked_text
  cases hs : (leaf v).text.toList with
  | nil =>
    rw [hs, List.nil_append] at h
    exact absurd (hr '(' (by rw [h]; rfl)) (by decide)
  | cons c t =>
    rw [hs] at h hv
    exact (hv c (.head _)).1 (List.cons_eq_cons.mp h).1

/-- All function names in the tree are free of brackets and commas. -/
def PlainNames (a : Argument) : Prop := ∀ n ∈ a.names, Unmarked n.toList

/-- The text of the tree ends in one place only, whatever follows. -/
def Readable (a : Argument) : Prop := ∀ (b : Argument) (rest rest' : List Char),
  b.PlainNames → Stops rest → Stops rest' →
    a.text.toList ++ rest = b.text.toList ++ rest' → a = b ∧ rest = rest'

theorem plainNames_call {name : String} {as : List Argument} :
    (call name as).PlainNames ↔ Unmarked name.toList ∧ ∀ a ∈ as, a.PlainNames := by
  rw [PlainNames, names, List.forall_mem_cons]
  refine and_congr_right fun _ => ?_
  constructor
  · exact fun h a ha n hn => h n (mem_listNames.mpr ⟨a, ha, hn⟩)
  · intro h n hn
    obtain ⟨a, ha, hn⟩ := mem_listNames.mp hn
    exact h a ha n hn

theorem listText_append_inj {as bs : List Argument} {rest rest' : List Char}
    (ha : ∀ a ∈ as, a.Readable) (hb : ∀ b ∈ bs, b.PlainNames)
    (h : (listText as).toList ++ ')' :: rest = (listText bs).toList ++ ')' :: rest') :
    as = bs ∧ rest = rest' := by
  induction as generalizing bs with
  | nil =>
    cases bs with
    | nil => exact ⟨rfl, (List.cons_eq_cons.mp h).2⟩
    | cons b bs =>
      rw [toList_listText_cons] at h
      exact absurd (List.cons_eq_cons.mp h).1 (by decide)
  | cons a as ih =>
    rw [toList_listText_cons] at h
    cases bs with
    | nil => exact absurd (List.cons_eq_cons.mp h).1 (by decide)
    | cons b bs =>
      rw [toList_listText_cons] at h
      obtain ⟨ha, has⟩ := List.forall_mem_cons.mp ha
      obtain ⟨hb, hbs⟩ := List.forall_mem_cons.mp hb
      obtain ⟨rfl, htail⟩ := ha b _ _ hb (stops_listText as rest) (stops_listText bs rest')
        (List.cons_eq_cons.mp h).2
      obtain ⟨rfl, hrest⟩ := ih has hbs htail
      exact ⟨rfl, hrest⟩

theorem text_append_inj (a : Argument) (ha : a.PlainNames) : a.Readable := by
  induction a with
  | leaf v =>
    intro b rest rest' hb hr hr' h
    cases b with
    | leaf w =>
      obtain ⟨htext, hrest⟩ := v.unmarked_text.append_inj w.unmarked_text hr hr' h
      have hvw : v = w := by rw [← v.ofChars_text, htext, w.ofChars_text]
      exact ⟨congrArg leaf hvw, hrest⟩
    | call name bs =>
      rw [toList_call] at h
      exact absurd h (leaf_ne_call hr)
  | call name as ih =>
    intro b rest rest' hb hr hr' h
    rw [toList_call] at h
    cases b with
    | leaf w => exact absurd h.symm (leaf_ne_call hr')
    | call name' bs =>
      rw [toList_call] at h
      obtain ⟨hname, has⟩ := plainNames_call.mp ha
      obtain ⟨hname', hbs⟩ := plainNames_call.mp hb
      obtain ⟨hn, htail⟩ := hname.append_inj hname' (stops_listText as rest)
        (stops_listText bs rest') (List.cons_eq_cons.mp h).2
      obtain ⟨rfl, hrest⟩ := listText_append_inj (fun a ha => ih a ha (has a ha)) hbs htail
      exact ⟨congrArg (call · as) (String.toList_inj.mp hn), hrest⟩

end Argument

namespace Call

/-- Calls whose function names hold no bracket and no comma have the same text only if they are the
same. -/
theorem text_eq_text_iff (c d : Call) (hc : ∀ n ∈ c.names, Unmarked n.toList)
    (hd : ∀ n ∈ d.names, Unmarked n.toList) : c.text = d.text ↔ c = d := by
  constructor
  · intro h
    have htext : c.toArgument.text.toList ++ [] = d.toArgument.text.toList ++ [] :=
      congrArg (·.toList ++ []) h
    obtain ⟨harg, -⟩ := Argument.text_append_inj c.toArgument hc d.toArgument [] [] hd stops_nil
      stops_nil htext
    obtain ⟨hname, harguments⟩ := Argument.call.inj harg
    cases c
    cases d
    exact congr (congrArg mk hname) harguments
  · rintro rfl
    rfl

/-- A call of the empty name with the constant 1 and with a call of a function named `y`. -/
def oneAndY : Call := ⟨"", [.leaf (.constant 1), .call "y" []]⟩

/-- A call of the empty name with a call of a function named `1` and with the result. -/
def callOneAndResult : Call := ⟨"", [.call "1" [], .leaf .result]⟩

theorem text_tells_lookalikes :
    (∀ n ∈ oneAndY.names, Unmarked n.toList) ∧ (∀ n ∈ callOneAndResult.names, Unmarked n.toList) ∧
      oneAndY.text ≠ callOneAndResult.text := by
  have hc : ∀ n ∈ oneAndY.names, Unmarked n.toList := by
    simp [oneAndY, names, toArgument, Argument.names, Argument.listNames, Unmarked]
  have hd : ∀ n ∈ callOneAndResult.names, Unmarked n.toList := by
    simp [callOneAndResult, names, toArgument, Argument.names, Argument.listNames, Unmarked]
  refine ⟨hc, hd, fun h => ?_⟩
  exact absurd ((text_eq_text_iff oneAndY callOneAndResult hc hd).mp h) (by decide)

/-- A comma in a name passes for one before an argument. -/
example : Call.text ⟨"F,x1", []⟩ = Call.text ⟨"F", [.leaf (.input 1)]⟩ := by decide

end Call

end SLanguage
