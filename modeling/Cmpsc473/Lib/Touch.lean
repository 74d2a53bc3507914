import Mathlib.Tactic
/-!
# Accesses to allocated blocks

A computation that ends with a value, or ends the program, and touches blocks
on the way. It goes on after an access that is out of bounds: whether one was
is asked of its record, which a rule for each construct answers.
-/

namespace Cmpsc473

/-- An access to a block of so many bytes, up to the offset `stop`. -/
structure Access where
  bytes : Nat
  stop : Nat
  deriving DecidableEq

/-- What is touched is allocated. -/
def Access.InBounds (a : Access) : Prop := a.stop ≤ a.bytes

instance (a : Access) : Decidable a.InBounds := inferInstanceAs (Decidable (_ ≤ _))

/-- Element `k` of a table with elements of `size` bytes. -/
def element (bytes size k : Nat) : Access := { bytes := bytes, stop := (k + 1) * size }

/-- The first `n` elements of a table, one after the other. -/
def elements (bytes size n : Nat) : List Access := (List.range n).map (element bytes size)

theorem element_mem (bytes size : Nat) {n k : Nat} (h : k < n) : element bytes size k ∈ elements bytes size n := by
  apply List.mem_map_of_mem
  exact List.mem_range.2 h

theorem elements_inBounds (bytes size n : Nat) : (∀ a ∈ elements bytes size n, a.InBounds) ↔ n * size ≤ bytes := by
  constructor
  · intro h
    cases n with
    | zero => simp
    | succ n => exact h _ (element_mem bytes size (Nat.lt_succ_self n))
  · intro h a ha
    obtain ⟨k, hk, rfl⟩ := List.mem_map.1 ha
    have hle : (k + 1) * size ≤ n * size := Nat.mul_le_mul_right size (List.mem_range.1 hk)
    exact hle.trans h

/-- The accesses of a computation, and its value; `none` where the program ends. -/
structure Touch (α : Type) where
  accesses : List Access
  result : Option α

namespace Touch

variable {α β : Type}

instance : Monad Touch where
  pure a := { accesses := [], result := some a }
  bind x f :=
    { accesses := x.accesses ++ x.result.elim [] fun a => (f a).accesses
      result := x.result.bind fun a => (f a).result }

/-- Blocks are touched. -/
def touch (as : List Access) : Touch Unit := { accesses := as, result := some () }

/-- The program ends. -/
def exit : Touch α := { accesses := [], result := none }

/-- A value that may be missing, with no access. -/
def ofOption (o : Option α) : Touch α := { accesses := [], result := o }

@[simp] theorem result_pure (a : α) : (pure a : Touch α).result = some a := rfl

@[simp] theorem result_bind (x : Touch α) (f : α → Touch β) :
    (x >>= f).result = x.result.bind fun a => (f a).result := rfl

@[simp] theorem result_touch (as : List Access) : (touch as).result = some () := rfl

@[simp] theorem result_exit : (exit : Touch α).result = none := rfl

@[simp] theorem result_ofOption (o : Option α) : (ofOption o).result = o := rfl

/-- Every access is in bounds. -/
def Safe (x : Touch α) : Prop := ∀ a ∈ x.accesses, a.InBounds

instance (x : Touch α) : Decidable x.Safe := inferInstanceAs (Decidable (∀ a ∈ x.accesses, a.InBounds))

@[simp] theorem safe_pure (a : α) : (pure a : Touch α).Safe := fun _ h => absurd h List.not_mem_nil

@[simp] theorem safe_exit : (exit : Touch α).Safe := fun _ h => absurd h List.not_mem_nil

@[simp] theorem safe_ofOption (o : Option α) : (ofOption o).Safe := fun _ h => absurd h List.not_mem_nil

@[simp] theorem safe_touch (as : List Access) : (touch as).Safe ↔ ∀ a ∈ as, a.InBounds := Iff.rfl

/-- A sequence is safe if its first part is, and the second part from where the
first ends. -/
theorem safe_bind (x : Touch α) (f : α → Touch β) :
    (x >>= f).Safe ↔ x.Safe ∧ ∀ a, x.result = some a → (f a).Safe := by
  have happ : (x >>= f).Safe ↔ x.Safe ∧ ∀ a ∈ x.result.elim [] fun a => (f a).accesses, a.InBounds :=
    List.forall_mem_append
  rw [happ]
  cases x.result <;> simp [Safe]

/-- What touches nothing may follow. -/
theorem safe_bind_pure (x : Touch α) (f : α → β) : (x >>= fun a => pure (f a)).Safe ↔ x.Safe := by
  rw [safe_bind]
  exact and_iff_left fun _ _ => safe_pure _

/-- A computation that has a value either way. -/
theorem safe_ite {c : Prop} [Decidable c] (x y : Touch α) :
    (if c then x else y).Safe ↔ (c → x.Safe) ∧ (¬c → y.Safe) := by
  split <;> simp [*]

end Touch

end Cmpsc473
