import Mathlib.Tactic
/-!
# Functions that may not return

A C function that returns, ends the program with an error, or faults.
-/

namespace Cmpsc473

variable {α β ε : Type}

/-- A result, an error that ends the program, or `none` for a fault. -/
abbrev Fallible (ε α : Type) := ExceptT ε Option α

/-- The function returns `a`. -/
def Returns (x : Fallible ε α) (a : α) : Prop := x.run = some (.ok a)

@[simp] theorem returns_pure {a b : α} : Returns (pure a : Fallible ε α) b ↔ a = b := by simp [Returns]

@[simp] theorem returns_throw {e : ε} {a : α} : ¬Returns (throw e : Fallible ε α) a := by simp [Returns]

@[simp] theorem returns_bind {x : Fallible ε α} {f : α → Fallible ε β} {b : β} :
    Returns (x >>= f) b ↔ ∃ a, Returns x a ∧ Returns (f a) b := by
  unfold Returns
  rw [ExceptT.run_bind]
  rcases x.run with _ | _ | a <;> simp

@[simp] theorem returns_lift {x : Option α} {a : α} : Returns (liftM x : Fallible ε α) a ↔ x = some a := by
  cases x <;> simp [Returns]

theorem Returns.unique {x : Fallible ε α} {a b : α} (ha : Returns x a) (hb : Returns x b) : a = b := by
  cases ha.symm.trans hb
  rfl

/-- `if (!b) error();`, where `error` ends the program. -/
def require (b : Bool) (e : ε) : Fallible ε Unit := if b then pure () else throw e

@[simp] theorem returns_require {b : Bool} {e : ε} {u : Unit} : Returns (require b e) u ↔ b = true := by
  cases b <;> simp [require]

/-- An access that faults unless `b`. -/
def access (b : Bool) : Fallible ε Unit := liftM (if b then some () else none)

@[simp] theorem returns_access {b : Bool} {u : Unit} : Returns (access b : Fallible ε Unit) u ↔ b = true := by
  cases b <;> simp [access]

end Cmpsc473
