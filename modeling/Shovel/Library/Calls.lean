import Shovel.Library.Machine

/-!
# Calls that take time

A program of a machine may stand at a call of its environment until a label
returns from it. `Machine.splitCalls` makes two steps of such a call: it begins,
and it returns. Between the two everything else may go on. The states of the new
machine are those of the old one with a mark that a call has begun, so what holds
in every reachable state of the old machine holds in the new one.
-/

namespace Transition

universe u v

/-- A state with the mark that the call the program stands at has begun. -/
structure Calling (σ : Type u) where
  state : σ
  busy : Bool
  deriving DecidableEq

/-- The beginning of a call, or a label of the machine. -/
inductive CallLabel (α : Type v) where
  | begins
  | other (label : α)

/-- The label is the beginning of a call. -/
def CallLabel.isBegin {α : Type v} : CallLabel α → Bool
  | .begins => true
  | .other _ => false

/-- The number of calls that have begun. -/
def begun {α : Type v} (labels : List (CallLabel α)) : Nat := labels.countP CallLabel.isBegin

section Begun

variable {α : Type v} (label : α) (labels more : List (CallLabel α))

@[simp] theorem begun_nil : begun ([] : List (CallLabel α)) = 0 := rfl

@[simp] theorem begun_begins : begun (.begins :: labels) = begun labels + 1 :=
  List.countP_cons_of_pos rfl

@[simp] theorem begun_other : begun (.other label :: labels) = begun labels :=
  List.countP_cons_of_neg Bool.false_ne_true

@[simp] theorem begun_append : begun (labels ++ more) = begun labels + begun more :=
  List.countP_append

end Begun

/-- No call begins exactly when its label does not occur. -/
theorem begun_eq_zero_iff {α : Type v} {labels : List (CallLabel α)} :
    begun labels = 0 ↔ .begins ∉ labels := by
  rw [begun, List.countP_eq_zero]
  constructor
  · exact fun hnone hmem => hnone _ hmem rfl
  · intro hnot label hmem hbegin
    cases label with
    | begins => exact hnot hmem
    | other label => cases hbegin

namespace Machine

variable {σ : Type u} {α : Type v}

/-- The machine in which the calls at `atCall` begin before a label of `returns` ends them. -/
def splitCalls (m : Machine σ α) (atCall : σ → Bool) (returns : α → Bool) :
    Machine (Calling σ) (CallLabel α) where
  init s := m.init s.state ∧ s.busy = false
  step s
    | .begins => if atCall s.state && !s.busy then some { s with busy := true } else none
    | .other label =>
        if returns label && !s.busy then none
        else (m.step s.state label).map fun state => ⟨state, s.busy && !returns label⟩

variable {m : Machine σ α} {atCall : σ → Bool} {returns : α → Bool} {s s' : Calling σ}

theorem splitCalls_begins (h : (m.splitCalls atCall returns).step s .begins = some s') :
    atCall s.state = true ∧ s.busy = false ∧ s' = { s with busy := true } := by
  simp only [splitCalls] at h
  split at h
  · rename_i henabled
    obtain rfl := Option.some.inj h
    simpa using henabled
  · cases h

theorem splitCalls_other {label : α}
    (h : (m.splitCalls atCall returns).step s (.other label) = some s') :
    (returns label = true → s.busy = true) ∧ m.step s.state label = some s'.state ∧
      s'.busy = (s.busy && !returns label) := by
  simp only [splitCalls] at h
  split at h
  · cases h
  · rename_i henabled
    obtain ⟨state, hstep, rfl⟩ := Option.map_eq_some_iff.mp h
    exact ⟨by simpa using henabled, hstep, rfl⟩

/-- Without the mark, the states are those of the machine. -/
theorem Reachable.state (h : (m.splitCalls atCall returns).Reachable s) :
    m.Reachable s.state := by
  have hinit : ∀ s, (m.splitCalls atCall returns).init s → m.Reachable s.state :=
    fun _ hinit => .start hinit.1
  have hkept : ∀ s s' label, m.Reachable s.state →
      (m.splitCalls atCall returns).step s label = some s' → m.Reachable s'.state := by
    intro s s' label hreach hstep
    cases label with
    | begins =>
        obtain ⟨-, -, rfl⟩ := splitCalls_begins hstep
        exact hreach
    | other label =>
        obtain ⟨-, hnext, -⟩ := splitCalls_other hstep
        exact hreach.step hnext
  exact h.invariant hinit hkept

/-- A program in a call stands at it, if only the return of a call takes it further. -/
theorem splitCalls_busy {label : CallLabel α}
    (hstay : ∀ s s' label, atCall s = true → returns label = false → m.step s label = some s' →
      atCall s' = true)
    (hbusy : s.busy = true → atCall s.state = true)
    (h : (m.splitCalls atCall returns).step s label = some s') :
    s'.busy = true → atCall s'.state = true := by
  intro hbusy'
  cases label with
  | begins =>
      obtain ⟨hat, -, rfl⟩ := splitCalls_begins h
      exact hat
  | other label =>
      obtain ⟨-, hnext, hmark⟩ := splitCalls_other h
      obtain ⟨hbefore, hlabel⟩ : s.busy = true ∧ returns label = false := by
        simpa using hmark.symm.trans hbusy'
      exact hstay _ _ _ (hbusy hbefore) hlabel hnext

end Machine

end Transition
