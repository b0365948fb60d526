import SLanguage.Fault

/-!
# Bounded computations

Programs may run forever, so a run is cut off after a given number of steps. `Bounded` keeps apart
the three ways it can go: an answer, a fault, or no answer within the bound.
-/

namespace SLanguage

inductive Bounded (α : Type) where
  | done (a : α)
  | failed (fault : Fault)
  | unfinished
  deriving DecidableEq, Repr

namespace Bounded

variable {α β : Type}

def bind : Bounded α → (α → Bounded β) → Bounded β
  | done a, f => f a
  | failed e, _ => failed e
  | unfinished, _ => unfinished

instance : Monad Bounded where
  pure := done
  bind := bind

instance : LawfulMonad Bounded :=
  LawfulMonad.mk' _
    (fun x => by cases x <;> rfl)
    (fun _ _ => rfl)
    (fun x _ _ => by cases x <;> rfl)

def ofExcept : Except Fault α → Bounded α
  | .ok a => done a
  | .error e => failed e

@[simp] theorem pure_eq (a : α) : (pure a : Bounded α) = done a := rfl

@[simp] theorem done_bind (a : α) (f : α → Bounded β) : (done a >>= f) = f a := rfl

@[simp] theorem failed_bind (e : Fault) (f : α → Bounded β) : (failed e >>= f) = failed e := rfl

@[simp] theorem unfinished_bind (f : α → Bounded β) : (unfinished >>= f) = unfinished := rfl

end Bounded

end SLanguage
