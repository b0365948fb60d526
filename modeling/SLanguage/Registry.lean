import Std.Data.TreeMap
import SLanguage.Fault

/-!
# Functions and their registry

A function is a named sequence; its arguments arrive in `x1, x2, …` and its answer is what `y` holds
at the end. Bodies call other functions by name, and a registry resolves names, in the order of
names.
-/

namespace SLanguage

structure Function where
  name : String
  /-- What the function computes, in the words of its author. -/
  userText : Option String := none
  body : List Instruction
  deriving DecidableEq, Repr

namespace Function

def scope (f : Function) : Scope := .function f.name

def text (f : Function) : String :=
  match f.userText with
  | some s => f.name ++ " = " ++ s
  | none => f.name

end Function

structure Registry where
  table : Std.TreeMap String Function
  /-- A function is filed under its own name. -/
  name_eq : ∀ (name : String) (f : Function), table[name]? = some f → f.name = name

namespace Registry

def empty : Registry := ⟨∅, fun _ _ h => by simp at h⟩

instance : Inhabited Registry := ⟨empty⟩

/-- Adds a function, in place of the one of the same name. -/
def insert (r : Registry) (f : Function) : Registry where
  table := r.table.insert f.name f
  name_eq name g h := by
    rw [Std.TreeMap.getElem?_insert] at h
    split at h
    · next e => cases h; exact Std.LawfulEqOrd.eq_of_compare e
    · exact r.name_eq name g h

def ofList (fs : List Function) : Registry := fs.foldl insert empty

def get? (r : Registry) (name : String) : Option Function := r.table[name]?

/-- The function of a name that is called at a site. -/
def lookup (r : Registry) (name : String) (site : Site) : Except Fault Function :=
  match r.get? name with
  | some f => .ok f
  | none => .error (.unknownFunction name site)

def contains (r : Registry) (name : String) : Bool := (r.get? name).isSome

def size (r : Registry) : Nat := r.table.size

def names (r : Registry) : List String := r.table.keys

def functions (r : Registry) : List Function := r.table.toList.map (·.2)

theorem name_of_get? {r : Registry} {name : String} {f : Function} (h : r.get? name = some f) :
    f.name = name :=
  r.name_eq name f h

theorem get?_insert (r : Registry) (f : Function) (name : String) :
    (r.insert f).get? name = if f.name = name then some f else r.get? name := by
  simp [get?, insert, Std.TreeMap.getElem?_insert]

theorem mem_names_iff {r : Registry} {name : String} :
    name ∈ r.names ↔ r.contains name = true := by
  simp [names, contains, get?]

theorem mem_names_of_get? {r : Registry} {name : String} {f : Function}
    (h : r.get? name = some f) : name ∈ r.names := by
  rw [mem_names_iff, contains, h]; rfl

theorem length_names (r : Registry) : r.names.length = r.size :=
  Std.TreeMap.length_keys

/-- The number of registered names outside a list. -/
def outside (r : Registry) (seen : List String) : Nat := r.names.countP (· ∉ seen)

theorem outside_append_lt {r : Registry} {seen : List String} {name : String}
    (hr : name ∈ r.names) (hs : name ∉ seen) : r.outside (seen ++ [name]) < r.outside seen := by
  unfold outside
  generalize r.names = names at hr
  induction names with
  | nil => cases hr
  | cons a rest ih =>
    have mono : rest.countP (· ∉ seen ++ [name]) ≤ rest.countP (· ∉ seen) :=
      List.countP_mono_left fun x _ h => by simp_all
    rw [List.countP_cons, List.countP_cons]
    rcases List.mem_cons.mp hr with rfl | hr
    · simpa [hs] using Nat.lt_succ_of_le mono
    · refine Nat.add_lt_add_of_lt_of_le (ih hr) ?_
      by_cases ha : a ∈ seen
      · simp [ha]
      · rw [if_pos (decide_eq_true ha)]
        split <;> decide

end Registry

end SLanguage
