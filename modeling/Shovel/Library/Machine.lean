import Mathlib.Logic.Relation

/-!
# Labelled transition machines

A `Machine` has a set of initial states and a partial step function indexed by
labels. A label says which thread moves and what its environment answers, so an
interleaving is a list of labels. `Machine.Reachable` collects the states of all
interleavings; `Machine.ReachableUnder` collects those of the interleavings
whose steps all meet a guard. `Reachable.invariant` and
`ReachableUnder.invariant` package the induction over runs, `run_follows` the one
of a machine that another can follow, and `ReachableUnder.projects` the one of a
machine that shows another.
-/

namespace Transition

universe u v

/-- Initial states together with a partial step function. `step s a` is `none` when the label
`a` is not enabled in `s`. -/
structure Machine (σ : Type u) (α : Type v) where
  init : σ → Prop
  step : σ → α → Option σ

namespace Machine

variable {σ : Type u} {α : Type v} {m : Machine σ α}

/-- Execute the labels in order; a label that is not enabled stops the run. -/
def run (m : Machine σ α) : List α → σ → Option σ
  | [], state => some state
  | label :: rest, state => m.step state label >>= run m rest

/-- The states of the interleavings in which every step satisfies `guard`, a condition on the
state before the step and its label. -/
inductive ReachableUnder (m : Machine σ α) (guard : σ → α → Prop) : σ → Prop where
  | start {state} : m.init state → ReachableUnder m guard state
  | next {state following label} :
      ReachableUnder m guard state → guard state label →
      m.step state label = some following → ReachableUnder m guard following

/-- The states of all interleavings. -/
def Reachable (m : Machine σ α) : σ → Prop :=
  ReachableUnder m fun _ _ => True

/-- The states of the guarded interleavings are states of interleavings. -/
theorem ReachableUnder.reachable {guard : σ → α → Prop} {state : σ}
    (h : m.ReachableUnder guard state) : m.Reachable state := by
  induction h with
  | start hi => exact .start hi
  | next _ _ hs ih => exact .next ih trivial hs

/-- One more step of an interleaving. -/
theorem Reachable.step {state following : σ} {label : α} (h : m.Reachable state)
    (hstep : m.step state label = some following) : m.Reachable following :=
  .next h trivial hstep

/-- Labels behind an enabled one are executed from where it leads. -/
theorem run_cons {label : α} {state following : σ} (rest : List α)
    (h : m.step state label = some following) :
    m.run (label :: rest) state = m.run rest following := by
  rw [Machine.run, h]
  rfl

/-- Labels behind others are executed from where these lead. -/
theorem run_append (first second : List α) (state : σ) :
    m.run (first ++ second) state = m.run first state >>= m.run second := by
  induction first generalizing state with
  | nil => rfl
  | cons label rest ih =>
      simp only [List.cons_append, Machine.run]
      cases m.step state label with
      | none => rfl
      | some following => exact ih following

/-- A run of one machine is one of another, if the other can follow each of its labels and the
states stay related. -/
theorem run_follows {τ : Type*} {β : Type*} {m' : Machine τ β} {Rel : σ → τ → Prop}
    {follow : α → β} {labels : List α} {state final : σ} {state' : τ}
    (hstep : ∀ label ∈ labels, ∀ state following state', Rel state state' →
      m.step state label = some following →
        ∃ following', m'.step state' (follow label) = some following' ∧ Rel following following')
    (hrel : Rel state state') (hrun : m.run labels state = some final) :
    ∃ final', m'.run (labels.map follow) state' = some final' ∧ Rel final final' := by
  induction labels generalizing state state' with
  | nil =>
      obtain rfl := Option.some.inj hrun
      exact ⟨state', rfl, hrel⟩
  | cons label rest ih =>
      obtain ⟨following, hfirst, hrest⟩ := Option.bind_eq_some_iff.mp hrun
      obtain ⟨hlabel, hlater⟩ := List.forall_mem_cons.mp hstep
      obtain ⟨following', hfirst', hrel'⟩ := hlabel _ _ _ hrel hfirst
      obtain ⟨final', hrest', hfinal⟩ := ih hlater hrel' hrest
      exact ⟨final', Option.bind_eq_some_iff.mpr ⟨following', hfirst', hrest'⟩, hfinal⟩

/-- Labels that the guard admits in every state lead from a reachable state to a reachable
state. -/
theorem ReachableUnder.run {guard : σ → α → Prop} {state final : σ} (labels : List α)
    (h : m.ReachableUnder guard state) (hguard : ∀ label ∈ labels, ∀ state, guard state label)
    (hrun : m.run labels state = some final) : m.ReachableUnder guard final := by
  induction labels generalizing state with
  | nil =>
      obtain rfl := Option.some.inj hrun
      exact h
  | cons label rest ih =>
      obtain ⟨following, hstep, hrest⟩ := Option.bind_eq_some_iff.mp hrun
      obtain ⟨hlabel, hlater⟩ := List.forall_mem_cons.mp hguard
      exact ih (.next h (hlabel state) hstep) hlater hrest

/-- Every state at the end of a run from a reachable state is reachable. -/
theorem Reachable.run {state final : σ} (labels : List α) (h : m.Reachable state)
    (hrun : m.run labels state = some final) : m.Reachable final :=
  ReachableUnder.run labels h (fun _ _ _ => trivial) hrun

/-- Every state at the end of a run from an initial state is reachable. -/
theorem reachable_of_run {state final : σ} (labels : List α) (hinit : m.init state)
    (hrun : m.run labels state = some final) : m.Reachable final :=
  Reachable.run labels (.start hinit) hrun

/-- A property that every allowed step preserves holds at the end of a run of such steps. -/
theorem run_invariant_of (inv : σ → Prop) {allowed : α → Prop} {labels : List α} {state final : σ}
    (hstep : ∀ state following label, allowed label → inv state →
      m.step state label = some following → inv following)
    (hinv : inv state) (hlabels : ∀ label ∈ labels, allowed label)
    (hrun : m.run labels state = some final) : inv final := by
  induction labels generalizing state with
  | nil =>
      obtain rfl := Option.some.inj hrun
      exact hinv
  | cons label rest ih =>
      obtain ⟨following, hfirst, hrest⟩ := Option.bind_eq_some_iff.mp hrun
      obtain ⟨hlabel, hlater⟩ := List.forall_mem_cons.mp hlabels
      exact ih (hstep _ _ _ hlabel hinv hfirst) hlater hrest

/-- A property that every step preserves holds at the end of a run. -/
theorem run_invariant (inv : σ → Prop) {labels : List α} {state final : σ}
    (hstep : ∀ state following label, inv state →
      m.step state label = some following → inv following)
    (hinv : inv state) (hrun : m.run labels state = some final) : inv final :=
  run_invariant_of inv (fun _ _ _ (_ : True) => hstep _ _ _) hinv (fun _ _ => trivial) hrun

/-- A property of the initial states that every guarded step preserves holds in every state
that guarded steps reach. -/
theorem ReachableUnder.invariant {guard : σ → α → Prop} {inv : σ → Prop}
    (hinit : ∀ state, m.init state → inv state)
    (hstep : ∀ state following label, inv state → guard state label →
      m.step state label = some following → inv following)
    {state : σ} (h : m.ReachableUnder guard state) : inv state := by
  induction h with
  | start hi => exact hinit _ hi
  | next _ hguard hs ih => exact hstep _ _ _ ih hguard hs

/-- A property of the initial states that every step preserves holds in every reachable
state. -/
theorem Reachable.invariant {inv : σ → Prop}
    (hinit : ∀ state, m.init state → inv state)
    (hstep : ∀ state following label, inv state →
      m.step state label = some following → inv following)
    {state : σ} (h : m.Reachable state) : inv state :=
  ReachableUnder.invariant hinit (fun _ _ _ hinv _ hs => hstep _ _ _ hinv hs) h

/-- What a machine shows through `f` is reachable in another one, if each of its steps is a step of
that one there or none at all. -/
theorem ReachableUnder.projects {τ : Type*} {β : Type*} {m' : Machine τ β} {f : σ → τ}
    {guard : σ → α → Prop} {guard' : τ → β → Prop}
    (hinit : ∀ state, m.init state → m'.init (f state))
    (hstep : ∀ state following label, m.ReachableUnder guard state → guard state label →
      m.step state label = some following → f following = f state ∨
        ∃ label', guard' (f state) label' ∧ m'.step (f state) label' = some (f following))
    {state : σ} (h : m.ReachableUnder guard state) : m'.ReachableUnder guard' (f state) := by
  induction h with
  | start hi => exact .start (hinit _ hi)
  | next hbefore hguard hs ih =>
      obtain hsame | ⟨label', hguard', hs'⟩ := hstep _ _ _ hbefore hguard hs
      · rwa [hsame]
      · exact .next ih hguard' hs'

end Machine

end Transition
