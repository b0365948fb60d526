import SLanguage.Variable

/-!
# Calls

A call `(F,a1,…,an)` applies a function to arguments; an argument is a variable or a call whose
value is meant. `Call.breadthFirst` lists a call and all calls below it, level by level.
-/

namespace SLanguage

inductive Argument where
  | leaf (v : Variable)
  | call (name : String) (arguments : List Argument)
  deriving Repr

structure Call where
  name : String
  arguments : List Argument
  deriving Repr

/-! ## Induction and equality -/

namespace Argument

mutual

/-- Induction on arguments: what holds of all arguments of a call holds of the call. -/
@[induction_eliminator]
theorem tree_induction {motive : Argument → Prop} (leaf : ∀ v, motive (leaf v))
    (call : ∀ name arguments, (∀ a ∈ arguments, motive a) → motive (call name arguments)) :
    ∀ a, motive a
  | .leaf v => leaf v
  | .call name arguments => call name arguments (list_induction leaf call arguments)

theorem list_induction {motive : Argument → Prop} (leaf : ∀ v, motive (leaf v))
    (call : ∀ name arguments, (∀ a ∈ arguments, motive a) → motive (call name arguments)) :
    ∀ arguments : List Argument, ∀ a ∈ arguments, motive a
  | [], _, h => nomatch h
  | b :: rest, a, h =>
    (List.mem_cons.mp h).elim (fun e => e ▸ tree_induction leaf call b)
      (list_induction leaf call rest a)

end

mutual

def decEq : (a b : Argument) → Decidable (a = b)
  | leaf v, leaf w =>
    if h : v = w then isTrue (by rw [h]) else isFalse (by simp [h])
  | leaf _, call _ _ => isFalse (by simp)
  | call _ _, leaf _ => isFalse (by simp)
  | call f as, call g bs =>
    if hf : f = g then
      match decEqList as bs with
      | isTrue h => isTrue (by rw [hf, h])
      | isFalse h => isFalse (by simp [h])
    else isFalse (by simp [hf])

def decEqList : (as bs : List Argument) → Decidable (as = bs)
  | [], [] => isTrue rfl
  | [], _ :: _ => isFalse (by simp)
  | _ :: _, [] => isFalse (by simp)
  | a :: as, b :: bs =>
    match decEq a b with
    | isTrue h =>
      match decEqList as bs with
      | isTrue hs => isTrue (by rw [h, hs])
      | isFalse hs => isFalse (by simp [hs])
    | isFalse h => isFalse (by simp [h])

end

instance : DecidableEq Argument := decEq

end Argument

deriving instance DecidableEq for Call

/-! ## Text, variables, renaming, depth -/

namespace Argument

mutual

def text : Argument → String
  | leaf v => v.text
  | call name arguments => "(" ++ name ++ listText arguments ++ ")"

def listText : List Argument → String
  | [] => ""
  | a :: rest => "," ++ a.text ++ listText rest

end

mutual

/-- The variables of an argument from left to right, constants included. -/
def vars : Argument → List Variable
  | leaf v => [v]
  | call _ arguments => listVars arguments

def listVars : List Argument → List Variable
  | [] => []
  | a :: rest => a.vars ++ listVars rest

end

mutual

def rename (f : Variable → Variable) : Argument → Argument
  | leaf v => leaf (f v)
  | call name arguments => call name (renameList f arguments)

def renameList (f : Variable → Variable) : List Argument → List Argument
  | [] => []
  | a :: rest => a.rename f :: renameList f rest

end

mutual

/-- The number of calls on the longest way down. -/
def depth : Argument → Nat
  | leaf _ => 0
  | call _ arguments => 1 + listDepth arguments

def listDepth : List Argument → Nat
  | [] => 0
  | a :: rest => max a.depth (listDepth rest)

end

mutual

/-- The number of calls in an argument. -/
def calls : Argument → Nat
  | leaf _ => 0
  | call _ arguments => 1 + listCalls arguments

def listCalls : List Argument → Nat
  | [] => 0
  | a :: rest => a.calls + listCalls rest

end

theorem listVars_eq (as : List Argument) : listVars as = as.flatMap vars := by
  induction as with
  | nil => rfl
  | cons a rest ih => rw [listVars, ih, List.flatMap_cons]

theorem renameList_eq (f : Variable → Variable) (as : List Argument) :
    renameList f as = as.map (rename f) := by
  induction as with
  | nil => rfl
  | cons a rest ih => rw [renameList, ih, List.map_cons]

def toCall? : Argument → Option Call
  | leaf _ => none
  | call name arguments => some ⟨name, arguments⟩

end Argument

namespace Call

def toArgument (c : Call) : Argument := .call c.name c.arguments

def text (c : Call) : String := c.toArgument.text

def vars (c : Call) : List Variable := Argument.listVars c.arguments

def rename (f : Variable → Variable) (c : Call) : Call :=
  ⟨c.name, Argument.renameList f c.arguments⟩

/-- 1 for a call whose arguments are all variables. -/
def depth (c : Call) : Nat := c.toArgument.depth

/-! ## Breadth-first order -/

/-- The calls that are arguments of this one. -/
def nested (c : Call) : List Call := c.arguments.filterMap Argument.toCall?

/-- The number of calls in the tree. -/
def size (c : Call) : Nat := c.toArgument.calls

/-- The number of calls in the trees of a queue. -/
def queueSize : List Call → Nat
  | [] => 0
  | c :: queue => c.size + queueSize queue

theorem queueSize_append (cs ds : List Call) :
    queueSize (cs ++ ds) = queueSize cs + queueSize ds := by
  induction cs with
  | nil => simp [queueSize]
  | cons c rest ih => simp only [List.cons_append, queueSize, ih, Nat.add_assoc]

theorem queueSize_filterMap (as : List Argument) :
    queueSize (as.filterMap Argument.toCall?) = Argument.listCalls as := by
  induction as with
  | nil => rfl
  | cons a rest ih =>
    cases a with
    | leaf v =>
      simp only [List.filterMap_cons, Argument.toCall?, ih, Argument.listCalls, Argument.calls,
        Nat.zero_add]
    | call name arguments =>
      simp only [List.filterMap_cons, Argument.toCall?, queueSize, ih, Argument.listCalls]
      rfl

theorem size_eq (c : Call) : c.size = 1 + queueSize c.nested := by
  rw [nested, queueSize_filterMap]; rfl

/-- The calls of a queue: its first call, then the queue without it and with the calls nested in it
at the end. -/
def walk : List Call → List Call
  | [] => []
  | c :: queue => c :: walk (queue ++ c.nested)
termination_by queue => queueSize queue
decreasing_by
  rw [queueSize_append, queueSize, size_eq]
  omega

/-- The call and every call nested in it, at any depth, breadth first. -/
def breadthFirst (c : Call) : List Call := walk [c]

end Call

end SLanguage
