import Std.Data.TreeMap
import SLanguage.Word

/-!
# Variables

The result `y`, the inputs `x1, x2, …`, the work variables `z1, z2, …`, and constants, which may
stand where a variable is read. `Variable.rank` embeds the order `y < x1 < x2 < … < z1 < … < 0 < 1
< …` in the natural numbers; `compare` is the order of ranks.
-/

namespace SLanguage

inductive Variable where
  | result
  | input (number : UInt32)
  | work (number : UInt32)
  | constant (value : Value)
  deriving DecidableEq, Repr

namespace Variable

def text : Variable → String
  | result => "y"
  | input n => "x" ++ toString n.toNat
  | work n => "z" ++ toString n.toNat
  | constant k => Word.text k

def isResult : Variable → Bool
  | result => true
  | _ => false

def isInput : Variable → Bool
  | input _ => true
  | _ => false

def isWork : Variable → Bool
  | work _ => true
  | _ => false

def isConstant : Variable → Bool
  | constant _ => true
  | _ => false

/-- A write to a constant has no effect, so an instruction must not target one. -/
def isWritable (v : Variable) : Bool := !v.isConstant

/-- Inputs and work variables are numbered from 1. -/
def isWellFormed : Variable → Bool
  | input n | work n => n != 0
  | result | constant _ => true

/-- Numbers of inputs and of work variables are below `2 ^ 32`. -/
def numberLimit : Nat := 4294967296

/-- The variable that holds the argument at a 0-based place. -/
def ofInputIndex (place : Nat) : Variable := input (UInt32.ofNat (place + 1))

/-! ## Order -/

/-- The result first, then room for each family: `2 ^ 32` inputs, `2 ^ 32` work variables, and the
constants. -/
def rank : Variable → Nat
  | result => 0
  | input n => 1 + n.toNat
  | work n => 4294967297 + n.toNat
  | constant k => 8589934593 + k.toNat

theorem rank_injective {v w : Variable} (h : v.rank = w.rank) : v = w := by
  cases v with
  | result => cases w <;> simp only [rank] at h <;> first | rfl | omega
  | input n =>
    have := n.toNat_lt
    cases w <;> simp only [rank] at h
    case input m => exact congrArg input (UInt32.toNat_inj.mp (by omega))
    all_goals omega
  | work n =>
    have := n.toNat_lt
    cases w <;> simp only [rank] at h
    case input m => have := m.toNat_lt; omega
    case work m => exact congrArg work (UInt32.toNat_inj.mp (by omega))
    all_goals omega
  | constant k =>
    cases w <;> simp only [rank] at h
    case input m => have := m.toNat_lt; omega
    case work m => have := m.toNat_lt; omega
    case constant m => exact congrArg constant (UInt64.toNat_inj.mp (by omega))
    all_goals omega

instance : Ord Variable := ⟨compareOn rank⟩

instance : Std.TransOrd Variable := inferInstanceAs (Std.TransCmp (compareOn rank))

instance : Std.LawfulEqOrd Variable where
  eq_of_compare h := rank_injective (Std.LawfulEqOrd.eq_of_compare (α := Nat) h)

end Variable

end SLanguage
