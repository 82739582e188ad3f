import Shovel.Library.Machine

/-!
# How far a machine goes

`Machine.tally` adds up a cost of the steps of a run. A measure that pays for
every step bounds what a run can cost (`tally_le`), and one that changes by what
each step gains and pays is a balance of the run (`tally_balance`). `Leads` says
that allowed steps can bring the machine from one state to another. A measure that
can be made smaller in every state short of a goal brings it to the goal
(`Leads.descend`, and `drains` for single steps).
-/

namespace Transition

namespace Machine

universe u v

variable {σ : Type u} {α : Type v}

/-- The cost of the steps of a run, each in the state before it. -/
def tally (m : Machine σ α) (cost : σ → α → Nat) : List α → σ → Nat
  | [], _ => 0
  | label :: rest, state =>
      cost state label + ((m.step state label).map (tally m cost rest)).getD 0

variable {m : Machine σ α} {cost : σ → α → Nat} {inv goal : σ → Prop} {measure : σ → Nat}
variable {allowed : α → Prop} {state final : σ}

/-- The first step of a run costs what it costs, and the others follow. -/
theorem tally_cons {label : α} {following : σ} (rest : List α)
    (h : m.step state label = some following) :
    m.tally cost (label :: rest) state = cost state label + m.tally cost rest following := by
  rw [tally, h]
  rfl

/-- A run of allowed steps costs at most what the measure has lost, if every such step costs at most
that. -/
theorem tally_le
    (hstep : ∀ state following label, inv state → allowed label →
      m.step state label = some following →
        inv following ∧ measure following + cost state label ≤ measure state)
    (hinv : inv state) {labels : List α} (hlabels : ∀ label ∈ labels, allowed label)
    (hrun : m.run labels state = some final) :
    inv final ∧ m.tally cost labels state + measure final ≤ measure state := by
  induction labels generalizing state with
  | nil =>
      obtain rfl := Option.some.inj hrun
      exact ⟨hinv, by simp [tally]⟩
  | cons label rest ih =>
      obtain ⟨following, hfirst, hrest⟩ := Option.bind_eq_some_iff.mp hrun
      obtain ⟨hlabel, hothers⟩ := List.forall_mem_cons.mp hlabels
      obtain ⟨hnext, hpays⟩ := hstep _ _ _ hinv hlabel hfirst
      obtain ⟨hfinal, hlater⟩ := ih hnext hothers hrest
      refine ⟨hfinal, ?_⟩
      rw [tally_cons rest hfirst]
      omega

/-- A run of allowed steps is no longer than the measure, if every such step makes it smaller. -/
theorem length_le
    (hstep : ∀ state following label, inv state → allowed label →
      m.step state label = some following → inv following ∧ measure following < measure state)
    (hinv : inv state) {labels : List α} (hlabels : ∀ label ∈ labels, allowed label)
    (hrun : m.run labels state = some final) :
    inv final ∧ labels.length + measure final ≤ measure state := by
  induction labels generalizing state with
  | nil =>
      obtain rfl := Option.some.inj hrun
      exact ⟨hinv, by simp⟩
  | cons label rest ih =>
      obtain ⟨following, hfirst, hrest⟩ := Option.bind_eq_some_iff.mp hrun
      obtain ⟨hlabel, hothers⟩ := List.forall_mem_cons.mp hlabels
      obtain ⟨hnext, hless⟩ := hstep _ _ _ hinv hlabel hfirst
      obtain ⟨hfinal, hlater⟩ := ih hnext hothers hrest
      refine ⟨hfinal, ?_⟩
      rw [List.length_cons]
      omega

/-- What a run has gained is what it has paid and what the measure has grown by, if that holds of
every step. -/
theorem tally_balance {gain : σ → α → Nat}
    (hstep : ∀ state following label, m.step state label = some following →
      measure following + cost state label = measure state + gain state label)
    {labels : List α} (hrun : m.run labels state = some final) :
    measure final + m.tally cost labels state = measure state + m.tally gain labels state := by
  induction labels generalizing state with
  | nil =>
      obtain rfl := Option.some.inj hrun
      rfl
  | cons label rest ih =>
      obtain ⟨following, hfirst, hrest⟩ := Option.bind_eq_some_iff.mp hrun
      have hpays := hstep _ _ _ hfirst
      have hlater := ih hrest
      rw [tally_cons rest hfirst, tally_cons rest hfirst]
      omega

/-- A run whose steps are all free costs nothing. -/
theorem tally_free
    (hstep : ∀ state following label, inv state → m.step state label = some following →
      inv following ∧ cost state label = 0)
    (hinv : inv state) {labels : List α} (hrun : m.run labels state = some final) :
    inv final ∧ m.tally cost labels state = 0 := by
  have hpays : ∀ state following label, inv state → True → m.step state label = some following →
      inv following ∧ 0 + cost state label ≤ 0 := by
    intro state following label hstate _ hnext
    obtain ⟨hfollowing, hzero⟩ := hstep state following label hstate hnext
    exact ⟨hfollowing, by omega⟩
  obtain ⟨hfinal, hcost⟩ := tally_le hpays hinv (fun _ _ => trivial) hrun
  exact ⟨hfinal, Nat.le_zero.mp hcost⟩

/-- Two costs together. -/
theorem tally_add (cost cost' : σ → α → Nat) (labels : List α) (state : σ) :
    m.tally (fun s label => cost s label + cost' s label) labels state =
      m.tally cost labels state + m.tally cost' labels state := by
  induction labels generalizing state with
  | nil => rfl
  | cons label rest ih =>
      rw [tally, tally, tally]
      cases m.step state label with
      | none =>
          simp only [Option.map_none, Option.getD_none]
          omega
      | some following =>
          simp only [Option.map_some, Option.getD_some, ih]
          omega

/-- Allowed steps lead from one state to the other. -/
def Leads (m : Machine σ α) (allowed : α → Prop) (state final : σ) : Prop :=
  ∃ labels, (∀ label ∈ labels, allowed label) ∧ m.run labels state = some final

namespace Leads

variable {middle : σ}

theorem refl (state : σ) : m.Leads allowed state state :=
  ⟨[], fun _ hmem => absurd hmem List.not_mem_nil, rfl⟩

theorem single {label : α} (hlabel : allowed label) (h : m.step state label = some final) :
    m.Leads allowed state final :=
  ⟨[label], fun _ hmem => List.mem_singleton.mp hmem ▸ hlabel, (run_cons [] h).trans rfl⟩

theorem trans (h : m.Leads allowed state middle) (hmore : m.Leads allowed middle final) :
    m.Leads allowed state final := by
  obtain ⟨labels, hlabels, hrun⟩ := h
  obtain ⟨more, hothers, hrest⟩ := hmore
  refine ⟨labels ++ more, fun label hmem => ?_, ?_⟩
  · exact (List.mem_append.mp hmem).elim (hlabels label) (hothers label)
  · rw [run_append, hrun]
    exact hrest

/-- What allowed steps keep they keep all the way. -/
theorem keeps (hstep : ∀ state following label, allowed label → inv state →
      m.step state label = some following → inv following)
    (h : m.Leads allowed state final) (hinv : inv state) : inv final := by
  obtain ⟨labels, hlabels, hrun⟩ := h
  induction labels generalizing state with
  | nil =>
      obtain rfl := Option.some.inj hrun
      exact hinv
  | cons label rest ih =>
      obtain ⟨following, hfirst, hrest⟩ := Option.bind_eq_some_iff.mp hrun
      obtain ⟨hlabel, hothers⟩ := List.forall_mem_cons.mp hlabels
      exact ih (hstep _ _ _ hlabel hinv hfirst) hothers hrest

/-- What one machine can do another can, if it follows every allowed label by an allowed one and
the states stay related. -/
theorem follows {τ : Type*} {β : Type*} {m' : Machine τ β} {Rel : σ → τ → Prop}
    {allowed' : β → Prop} {follow : α → β} {state' : τ}
    (hstep : ∀ label state following state', allowed label → Rel state state' →
      m.step state label = some following →
        ∃ following', m'.step state' (follow label) = some following' ∧ Rel following following')
    (hallowed : ∀ label, allowed label → allowed' (follow label)) (hrel : Rel state state')
    (h : m.Leads allowed state final) : ∃ final', m'.Leads allowed' state' final' ∧
      Rel final final' := by
  obtain ⟨labels, hlabels, hrun⟩ := h
  obtain ⟨final', hrun', hfinal⟩ := run_follows
    (fun label hmem state following state' =>
      hstep label state following state' (hlabels label hmem))
    hrel hrun
  refine ⟨final', ⟨labels.map follow, fun label hmem => ?_, hrun'⟩, hfinal⟩
  obtain ⟨own, hown, rfl⟩ := List.mem_map.mp hmem
  exact hallowed own (hlabels own hown)

/-- Where allowed steps lead from every state short of the goal to one with a smaller measure, they
lead to the goal. -/
theorem descend
    (hstep : ∀ state, inv state → ¬ goal state → ∃ following, m.Leads allowed state following ∧
      inv following ∧ measure following < measure state)
    (hinv : inv state) : ∃ final, m.Leads allowed state final ∧ inv final ∧ goal final := by
  induction hn : measure state using Nat.strongRecOn generalizing state with
  | ind n ih =>
      by_cases hgoal : goal state
      · exact ⟨state, refl state, hinv, hgoal⟩
      · obtain ⟨following, hfirst, hnext, hless⟩ := hstep state hinv hgoal
        obtain ⟨final, hrest, hfinal, hreached⟩ := ih (measure following) (hn ▸ hless) hnext rfl
        exact ⟨final, hfirst.trans hrest, hfinal, hreached⟩

end Leads

/-- Where every state short of the goal has an allowed step that makes the measure smaller, allowed
steps lead to the goal. -/
theorem drains
    (hstep : ∀ state, inv state → ¬ goal state → ∃ label following, allowed label ∧
      m.step state label = some following ∧ inv following ∧ measure following < measure state)
    (hinv : inv state) :
    ∃ labels final, (∀ label ∈ labels, allowed label) ∧ m.run labels state = some final ∧
      inv final ∧ goal final := by
  have hleads : ∀ state, inv state → ¬ goal state → ∃ following, m.Leads allowed state following ∧
      inv following ∧ measure following < measure state := by
    intro state hstate hgoal
    obtain ⟨label, following, hlabel, hfirst, hnext⟩ := hstep state hstate hgoal
    exact ⟨following, .single hlabel hfirst, hnext⟩
  obtain ⟨final, ⟨labels, hlabels, hrun⟩, hfinal⟩ := Leads.descend hleads hinv
  exact ⟨labels, final, hlabels, hrun, hfinal⟩

end Machine

end Transition
