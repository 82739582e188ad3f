import Mathlib.Data.List.Basic

/-!
# Bounded first-in first-out queues

A `Fifo` is a list of items that never exceeds its bound. `push` appends an item
when there is room and `pop` removes the first one.
-/

namespace Bounded

universe u

/-- A queue of at most `bound` items, oldest first. -/
structure Fifo (α : Type u) where
  bound : Nat
  items : List α
  fits : items.length ≤ bound

namespace Fifo

variable {α : Type u}

/-- The queue without items. -/
def empty (bound : Nat) : Fifo α := ⟨bound, [], Nat.zero_le bound⟩

/-- Another item fits. -/
def HasRoom (f : Fifo α) : Prop := f.items.length < f.bound

instance (f : Fifo α) : Decidable f.HasRoom := inferInstanceAs (Decidable (_ < _))

/-- Append an item; a full queue stays as it is. -/
def push (f : Fifo α) (item : α) : Fifo α :=
  if h : f.HasRoom then
    ⟨f.bound, f.items ++ [item], by simp only [List.length_append, List.length_singleton]; exact h⟩
  else f

/-- Remove the first item; an empty queue stays as it is. -/
def pop (f : Fifo α) : Fifo α :=
  ⟨f.bound, f.items.tail, by
    rw [List.length_tail]
    exact Nat.le_trans (Nat.sub_le _ _) f.fits⟩

variable {f : Fifo α} {item : α}

@[ext] theorem ext {f g : Fifo α} (hbound : f.bound = g.bound) (hitems : f.items = g.items) :
    f = g := by
  cases f
  cases g
  cases hbound
  cases hitems
  rfl

@[simp] theorem empty_items (bound : Nat) : (empty bound : Fifo α).items = [] := rfl

@[simp] theorem empty_bound (bound : Nat) : (empty bound : Fifo α).bound = bound := rfl

@[simp] theorem push_bound : (f.push item).bound = f.bound := by
  unfold push
  split <;> rfl

@[simp] theorem pop_bound : f.pop.bound = f.bound := rfl

@[simp] theorem pop_items : f.pop.items = f.items.tail := rfl

theorem push_items (h : f.HasRoom) : (f.push item).items = f.items ++ [item] := by
  simp [push, h]

end Fifo

end Bounded
