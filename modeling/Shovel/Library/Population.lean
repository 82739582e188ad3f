import Mathlib.Algebra.BigOperators.Group.Finset.Piecewise
import Mathlib.Algebra.Order.BigOperators.Group.Finset
import Mathlib.Data.Fintype.Basic

/-!
# Weighing threads by their program points

The threads of a system are a finite type, and `pc` gives the program point of
each. `total w pc` adds up a weight of program points over all threads, such as
one for every thread that is asleep. Moving one thread changes a total by the
difference of two weights (`total_update`), so an inequality between totals is
kept by a step if it is kept by the weights of the threads that move. `listed`
is the same for threads that stand in a list, as spawned ones do.
-/

namespace Population

universe u v

variable {T : Type u} {P : Type v} [Fintype T]

/-- The weights of the program points of all threads, added up. -/
def total (w : P → Nat) (pc : T → P) : Nat :=
  ∑ t, w (pc t)

variable {w w' : P → Nat} {pc : T → P}

/-- A total is zero exactly when no thread contributes to it. -/
theorem total_eq_zero_iff : total w pc = 0 ↔ ∀ t, w (pc t) = 0 := by
  simp [total, Finset.sum_eq_zero_iff]

/-- A positive total has a thread that contributes to it. -/
theorem total_pos_iff : 0 < total w pc ↔ ∃ t, 0 < w (pc t) := by
  rw [Nat.pos_iff_ne_zero, ne_eq, total_eq_zero_iff]
  simp [Nat.pos_iff_ne_zero]

/-- A total grows with the weights. -/
theorem total_mono (h : ∀ p, w p ≤ w' p) : total w pc ≤ total w' pc :=
  Finset.sum_le_sum fun t _ => h (pc t)

/-- Two weights that no program point carries both, nor one of them twice, add up to no more than
the number of threads. -/
theorem total_add_le_card (h : ∀ p, w p + w' p ≤ 1) :
    total w pc + total w' pc ≤ Fintype.card T := by
  rw [total, total, ← Finset.sum_add_distrib]
  simpa using Finset.sum_le_card_nsmul Finset.univ (fun t => w (pc t) + w' (pc t)) 1
    fun t _ => h (pc t)

variable [DecidableEq T]

/-- Moving one thread changes a total by the difference of two weights. -/
theorem total_update (w : P → Nat) (pc : T → P) (t : T) (p : P) :
    total w (Function.update pc t p) + w (pc t) = total w pc + w p := by
  have hmoved : (fun u => w (Function.update pc t p u)) =
      Function.update (fun u => w (pc u)) t (w p) := by
    funext u
    by_cases hu : u = t
    · rw [hu, Function.update_self, Function.update_self]
    · rw [Function.update_of_ne hu, Function.update_of_ne hu]
  have hrest := Finset.add_sum_erase Finset.univ (fun u => w (pc u)) (Finset.mem_univ t)
  simp only [total]
  rw [hmoved, Finset.sum_update_of_mem (Finset.mem_univ t), Finset.sdiff_singleton_eq_erase,
    ← hrest]
  omega

/-- Moving a thread between program points of equal weight keeps a total. -/
theorem total_update_of_eq {t : T} {p : P} (h : w p = w (pc t)) :
    total w (Function.update pc t p) = total w pc := by
  have hmove := total_update w pc t p
  omega

/-- The weights of the threads in a list, added up. -/
def listed {α : Type*} (w : α → Nat) : List α → Nat
  | [] => 0
  | a :: rest => w a + listed w rest

/-- Moving one thread of a list changes the total by the difference of two weights. -/
theorem listed_set {α : Type*} (w : α → Nat) (b : α) {l : List α} {i : Nat} {a : α}
    (h : l[i]? = some a) : listed w (l.set i b) + w a = listed w l + w b := by
  induction l generalizing i with
  | nil => simp at h
  | cons head rest ih =>
      cases i with
      | zero =>
          obtain rfl := Option.some.inj h
          simp only [List.set_cons_zero, listed]
          omega
      | succ i =>
          have hrest := ih (i := i) h
          simp only [List.set_cons_succ, listed]
          omega

/-- A further thread adds its weight. -/
theorem listed_append {α : Type*} (w : α → Nat) (first second : List α) :
    listed w (first ++ second) = listed w first + listed w second := by
  induction first with
  | nil => simp [listed]
  | cons head rest ih =>
      simp only [List.cons_append, listed, ih]
      omega

end Population
