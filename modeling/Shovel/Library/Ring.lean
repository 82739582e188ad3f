import Mathlib.Data.List.Basic
import Mathlib.Data.Nat.ModEq

/-!
# Items in a circular array

A `Window` relates a list of cells to a list of items: starting at cell `start`
and wrapping around at the end, the first cells hold the items in order and the
remaining cells are free. What it means for a cell to hold an item or to be free
is a parameter. `Window.push` writes the first free cell and `Window.pop` frees
the first occupied one; neither touches another cell, since the cells at
different offsets below the capacity are different (`slot_ne`).
-/

namespace Circular

universe u v

/-- Different offsets below the capacity lead to different cells. -/
theorem slot_ne (start : Nat) {capacity i j : Nat} (hi : i < capacity) (hj : j < capacity)
    (hne : i ≠ j) : (start + i) % capacity ≠ (start + j) % capacity := by
  intro h
  have hmod : i % capacity = j % capacity := Nat.ModEq.add_left_cancel' start h
  rw [Nat.mod_eq_of_lt hi, Nat.mod_eq_of_lt hj] at hmod
  exact hne hmod

/-- From cell `start` on, the cells hold the items in order, and the others are free. -/
structure Window {κ : Type u} {α : Type v} (Holds : κ → α → Prop) (Free : κ → Prop)
    (cells : List κ) (start : Nat) (items : List α) : Prop where
  fits : items.length ≤ cells.length
  occupied : ∀ {i item}, items[i]? = some item →
    ∃ cell, cells[(start + i) % cells.length]? = some cell ∧ Holds cell item
  vacant : ∀ {i}, items.length ≤ i → i < cells.length →
    ∃ cell, cells[(start + i) % cells.length]? = some cell ∧ Free cell

namespace Window

variable {κ : Type u} {α : Type v} {Holds : κ → α → Prop} {Free : κ → Prop}
variable {cells : List κ} {start : Nat} {items : List α} {item : α} {cell : κ}

/-- Free cells hold the empty list. -/
theorem empty (h : ∀ cell ∈ cells, Free cell) (start : Nat) :
    Window Holds Free cells start [] where
  fits := Nat.zero_le _
  occupied := by simp
  vacant := by
    intro i _ hi
    have hslot : (start + i) % cells.length < cells.length := Nat.mod_lt _ (by omega)
    exact ⟨cells[(start + i) % cells.length], List.getElem?_eq_getElem hslot,
      h _ (List.getElem_mem hslot)⟩

/-- Only the start's remainder matters. -/
theorem congr_start {other : Nat} (h : Window Holds Free cells start items)
    (hmod : start % cells.length = other % cells.length) :
    Window Holds Free cells other items := by
  have hslot : ∀ i, (other + i) % cells.length = (start + i) % cells.length := by
    intro i
    rw [Nat.add_mod, ← hmod, ← Nat.add_mod]
  refine ⟨h.fits, ?_, ?_⟩
  · intro i item hitem
    rw [hslot]
    exact h.occupied hitem
  · intro i hlow hhigh
    rw [hslot]
    exact h.vacant hlow hhigh

/-- The first cell holds the first item. -/
theorem first (h : Window Holds Free cells start items) (hfirst : items.head? = some item) :
    ∃ cell, cells[start % cells.length]? = some cell ∧ Holds cell item := by
  rw [List.head?_eq_getElem?] at hfirst
  simpa using h.occupied hfirst

/-- While an item fits, the cell behind the last item is free. -/
theorem next (h : Window Holds Free cells start items) (hroom : items.length < cells.length) :
    ∃ cell, cells[(start + items.length) % cells.length]? = some cell ∧ Free cell :=
  h.vacant (Nat.le_refl _) hroom

/-- Writing an item into the cell behind the last item appends it. -/
theorem push (h : Window Holds Free cells start items) (hroom : items.length < cells.length)
    (hholds : Holds cell item) :
    Window Holds Free (cells.set ((start + items.length) % cells.length) cell) start
      (items ++ [item]) := by
  have hslot : (start + items.length) % cells.length < cells.length := Nat.mod_lt _ (by omega)
  refine ⟨?_, ?_, ?_⟩
  · simp only [List.length_append, List.length_singleton, List.length_set]
    omega
  · intro i other hother
    rw [List.length_set]
    by_cases hlast : i = items.length
    · subst i
      obtain rfl : item = other := by simpa using hother
      exact ⟨cell, by simp [hslot], hholds⟩
    · have hlt : i < items.length := by
        have hlong : i < (items ++ [item]).length := (List.getElem?_eq_some_iff.mp hother).1
        simp only [List.length_append, List.length_singleton] at hlong
        omega
      have hne := slot_ne start hroom (Nat.lt_trans hlt hroom) (Ne.symm hlast)
      rw [List.getElem?_set_ne hne]
      exact h.occupied (by rwa [List.getElem?_append_left hlt] at hother)
  · intro i hlow hhigh
    rw [List.length_set] at hhigh ⊢
    simp only [List.length_append, List.length_singleton] at hlow
    have hne := slot_ne start hroom hhigh (by omega)
    rw [List.getElem?_set_ne hne]
    exact h.vacant (by omega) hhigh

/-- Freeing the first cell removes the first item. -/
theorem pop (h : Window Holds Free cells start items) (hne : items ≠ []) (hfree : Free cell) :
    Window Holds Free (cells.set (start % cells.length) cell) (start + 1) items.tail := by
  have hpos : 0 < items.length := List.length_pos_iff.mpr hne
  have hcells : 0 < cells.length := Nat.lt_of_lt_of_le hpos h.fits
  have hslot : start % cells.length < cells.length := Nat.mod_lt _ hcells
  refine ⟨?_, ?_, ?_⟩
  · rw [List.length_tail, List.length_set]
    exact Nat.le_trans (Nat.sub_le _ _) h.fits
  · intro i item hitem
    have hnext : items[i + 1]? = some item := by rwa [List.getElem?_tail] at hitem
    have hlt : i + 1 < items.length := (List.getElem?_eq_some_iff.mp hnext).1
    have hother := slot_ne start hcells (Nat.lt_of_lt_of_le hlt h.fits)
      (Nat.succ_ne_zero i).symm
    rw [List.length_set, Nat.add_assoc, Nat.add_comm 1 i]
    rw [Nat.add_zero] at hother
    rw [List.getElem?_set_ne hother]
    exact h.occupied hnext
  · intro i hlow hhigh
    rw [List.length_set] at hhigh ⊢
    rw [List.length_tail] at hlow
    rw [Nat.add_assoc, Nat.add_comm 1 i]
    by_cases hwrap : i + 1 = cells.length
    · rw [hwrap, Nat.add_mod_right]
      exact ⟨cell, by simp [hslot], hfree⟩
    · have hother := slot_ne start hcells (show i + 1 < cells.length by omega)
        (Nat.succ_ne_zero i).symm
      rw [Nat.add_zero] at hother
      rw [List.getElem?_set_ne hother]
      exact h.vacant (by omega) (by omega)

end Window

end Circular
