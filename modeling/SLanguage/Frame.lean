import Std.Data.TreeMap
import SLanguage.Variable

/-!
# Frames

A frame holds the variables of one run. A variable that it does not hold reads zero, a constant
reads as itself, and a write to a constant is lost.
-/

namespace SLanguage

structure Frame where
  values : Std.TreeMap Variable Value := ∅

namespace Frame

/-- The inputs in `x1, x2, …`. -/
def ofInputs (inputs : List Value) : Frame :=
  ⟨inputs.zipIdx.foldl (fun m (value, place) => m.insert (.ofInputIndex place) value) ∅⟩

def get (f : Frame) : Variable → Value
  | .constant k => k
  | v => f.values[v]?.getD 0

def set (f : Frame) (v : Variable) (value : Value) : Frame :=
  if v.isConstant then f else ⟨f.values.insert v value⟩

def increment (f : Frame) (v : Variable) : Frame := f.set v (Word.increment (f.get v))

def decrement (f : Frame) (v : Variable) : Frame := f.set v (Word.decrement (f.get v))

/-- Holds variables from now on, with the value they read. -/
def declare (f : Frame) (vs : List Variable) : Frame :=
  vs.foldl (fun f v => if v.isConstant then f else ⟨f.values.insertIfNew v 0⟩) f

def result (f : Frame) : Value := f.get .result

/-- The variables held, in order, with their values. -/
def toList (f : Frame) : List (Variable × Value) := f.values.toList

def text (f : Frame) : String :=
  String.intercalate ", " (f.toList.map fun (v, value) => v.text ++ " = " ++ Word.text value)

theorem get_set (f : Frame) {v : Variable} (hv : v.isConstant = false) (value : Value)
    (w : Variable) : (f.set v value).get w = if w = v then value else f.get w := by
  by_cases h : w = v
  · subst h
    cases w <;> simp_all [set, get, Variable.isConstant]
  · have : compare v w ≠ .eq := fun e => h (Std.LawfulEqOrd.eq_of_compare e).symm
    cases w <;> simp_all [set, get, Std.TreeMap.getElem?_insert]

theorem get_declare (f : Frame) (vs : List Variable) (w : Variable) :
    (f.declare vs).get w = f.get w := by
  unfold declare
  induction vs generalizing f with
  | nil => rfl
  | cons v rest ih =>
    rw [List.foldl_cons, ih]
    split
    · rfl
    · cases w with
      | constant k => rfl
      | _ =>
        simp only [get, Std.TreeMap.getElem?_insertIfNew]
        split
        · next h =>
          have : f.values[v]? = none := by simpa using h.2
          rw [← Std.LawfulEqOrd.eq_of_compare h.1, this]
          rfl
        · rfl

end Frame

end SLanguage
