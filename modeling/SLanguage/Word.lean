/-!
# 64-bit words

Values of variables and cycle counts. `Word.increment` and `Word.add` stop at the largest word,
`Word.decrement` stops at zero, so no operation wraps around.
-/

namespace SLanguage

abbrev Word := UInt64

namespace Word

/-- The largest word, `2 ^ 64 - 1`. -/
def top : Word := 18446744073709551615

def increment (w : Word) : Word := if w = top then w else w + 1

def decrement (w : Word) : Word := if w = 0 then w else w - 1

/-- Addition that stays at `top` instead of wrapping. -/
def add (a b : Word) : Word := if top - a < b then top else a + b

/-- Decimal digits. -/
def text (w : Word) : String := toString w.toNat

theorem toNat_top : top.toNat = 18446744073709551615 := rfl

theorem toNat_increment (w : Word) : (increment w).toNat = min (w.toNat + 1) top.toNat := by
  have hw := w.toNat_lt
  unfold increment
  split
  · next h => subst h; simp [toNat_top]
  · next h =>
    have : w.toNat ≠ 18446744073709551615 := fun e => h (UInt64.toNat_inj.mp e)
    rw [UInt64.toNat_add, UInt64.toNat_one, toNat_top]
    omega

theorem toNat_decrement (w : Word) : (decrement w).toNat = w.toNat - 1 := by
  unfold decrement
  split
  · next h => subst h; rfl
  · next h =>
    have : w.toNat ≠ 0 := fun e => h (UInt64.toNat_inj.mp e)
    exact UInt64.toNat_sub_of_le _ _ (by rw [UInt64.le_iff_toNat_le, UInt64.toNat_one]; omega)

theorem toNat_add (a b : Word) : (add a b).toNat = min (a.toNat + b.toNat) top.toNat := by
  have ha := a.toNat_lt
  have hb := b.toNat_lt
  have hsub : (top - a).toNat = 18446744073709551615 - a.toNat :=
    UInt64.toNat_sub_of_le _ _ (by rw [UInt64.le_iff_toNat_le, toNat_top]; omega)
  unfold add
  split
  · next h =>
    rw [UInt64.lt_iff_toNat_lt, hsub] at h
    rw [toNat_top]; omega
  · next h =>
    rw [UInt64.lt_iff_toNat_lt, hsub] at h
    rw [UInt64.toNat_add, toNat_top]; omega

end Word

/-- What a variable holds. -/
abbrev Value := Word

/-- What an instruction costs. -/
abbrev Cycles := Word

end SLanguage
